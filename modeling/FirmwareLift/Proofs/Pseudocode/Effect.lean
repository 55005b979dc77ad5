import FirmwareLift.Idiom.Library
import FirmwareLift.Proofs.Dataflow.Execution

/-!
# Effects

What a statement does to registers and to a memory of bytes, read off its text, and what the
instructions that load constants, add them and access words do.
-/

namespace FirmwareLift

/-- What every byte of the address space holds. -/
abbrev Memory := Address → UInt8

namespace Memory

def load (memory : Memory) (address : Address) : Word :=
  .ofBytes (memory address) (memory (address + 1)) (memory (address + 2)) (memory (address + 3))

/-- Puts the four bytes of a word at an address and behind it, the lowest byte first. -/
def store (memory : Memory) (address : Address) (word : Word) : Memory := fun place =>
  if place - address < 4 then (word >>> (8 * (place - address))).toUInt8 else memory place

end Memory

abbrev WordMachine := Machine Word Memory

def Machine.assign (m : WordMachine) (register : Operand) (word : Word) : WordMachine :=
  { m with registers := fun r => if r = register then word else m.registers r }

/-- A register, if there is one, and a constant that is added to it modulo 2^32. -/
structure Expression where
  register? : Option Operand
  offset : Word
deriving DecidableEq

inductive Effect where
  | assign (target : Operand) (value : Expression)
  | load (target : Operand) (address : Expression)
  | store (address value : Expression)
  | increment (address amount : Expression)
deriving DecidableEq

namespace Expression

def eval (e : Expression) (m : WordMachine) : Word :=
  e.register?.elim 0 m.registers + e.offset

/-- A register, or a constant. -/
def atom? (text : List Char) : Option Expression :=
  let operand : Operand := String.ofList text
  if operand.isRegister then some ⟨some operand, 0⟩ else operand.value?.map (⟨none, ·⟩)

/-- An atom, or an atom to which a constant is added or from which it is subtracted. -/
def read? (text : List Char) : Option Expression :=
  (atom? text).or do
    let (left, rest) ← Template.splitFirst? ' ' text
    let left ← atom? left
    match rest with
    | '+' :: ' ' :: right =>
      return { left with offset := left.offset + (← Operand.value? (String.ofList right)) }
    | '-' :: ' ' :: right =>
      return { left with offset := left.offset - (← Operand.value? (String.ofList right)) }
    | _ => none

end Expression

namespace Effect

def perform (m : WordMachine) : Effect → WordMachine
  | assign target value => m.assign target (value.eval m)
  | load target address => m.assign target (m.memory.load (address.eval m))
  | store address value => { m with memory := m.memory.store (address.eval m) (value.eval m) }
  | increment address amount =>
    let place := address.eval m
    { m with memory := m.memory.store place (m.memory.load place + amount.eval m) }

def target? : Effect → Option Operand
  | assign target _ | load target _ => some target
  | store _ _ | increment _ _ => none

/-- The registers on which the effect depends. -/
def reads : Effect → List Operand
  | assign _ value => value.register?.toList
  | load _ address => address.register?.toList
  | store address value => address.register?.toList ++ value.register?.toList
  | increment address amount => address.register?.toList ++ amount.register?.toList

/-! ## Statements -/

/-- Reads `e) = v` or `e) += k`, as it stands behind `*(`. -/
def readAccess? (text : List Char) : Option Effect := do
  let (address, rest) ← Template.splitFirst? ')' text
  match rest with
  | ' ' :: '=' :: ' ' :: value =>
    return store (← Expression.read? address) (← Expression.read? value)
  | ' ' :: '+' :: '=' :: ' ' :: amount =>
    return increment (← Expression.read? address) (← Expression.read? amount)
  | _ => none

/-- Reads `e, v)`, as it stands behind `REG_WRITE(`. -/
def readRegisterWrite? (text : List Char) : Option Effect := do
  let (address, rest) ← Template.splitFirst? ',' text
  let (value, _) ← Template.splitFirst? ')' (rest.drop 1)
  return store (← Expression.read? address) (← Expression.read? value)

/-- Reads `r = e` or `r = *(e)`. -/
def readAssignment? (text : List Char) : Option Effect := do
  let (target, rest) ← Template.splitFirst? ' ' text
  match rest with
  | '=' :: ' ' :: '*' :: '(' :: rest =>
    let (address, _) ← Template.splitFirst? ')' rest
    return load (String.ofList target) (← Expression.read? address)
  | '=' :: ' ' :: value => return assign (String.ofList target) (← Expression.read? value)
  | _ => none

def readStatement? : List Char → Option Effect
  | '*' :: '(' :: access => readAccess? access
  | 'R' :: 'E' :: 'G' :: '_' :: 'W' :: 'R' :: 'I' :: 'T' :: 'E' :: '(' :: write =>
    readRegisterWrite? write
  | assignment => readAssignment? assignment

/-- Reads a statement up to its semicolon; what follows is a comment. -/
def read? (text : List Char) : Option Effect :=
  (Template.splitFirst? ';' text).bind fun (statement, _) => readStatement? statement

end Effect

/-- Performs statements in order; fails on one that has no effect of these forms. -/
def performStatements? (statements : List String) (m : WordMachine) : Option WordMachine :=
  statements.foldlM (fun m statement => (Effect.read? statement.toList).map (·.perform m)) m

/-! ## Instructions -/

/-- The sum of a base register and a constant. -/
def Expression.ofOperands? (base offset : Operand) : Option Expression :=
  if base.isRegister then offset.value?.map (⟨some base, ·⟩) else none

/-- What an instruction does that loads a constant, adds one, or accesses a word. -/
def Instruction.effect? (insn : Instruction) : Option Effect :=
  match insn.mnemonic, insn.operands with
  | "movi", [target, constant] | "l32r", [target, constant] =>
    if target.isRegister then constant.value?.map fun word => .assign target ⟨none, word⟩ else none
  | "addi", [target, source, amount] =>
    if target.isRegister then (Expression.ofOperands? source amount).map (.assign target) else none
  | "l32i", [target, base, offset] =>
    if target.isRegister then (Expression.ofOperands? base offset).map (.load target) else none
  | "s32i", [source, base, offset] =>
    if source.isRegister then
      (Expression.ofOperands? base offset).map (.store · ⟨some source, 0⟩)
    else none
  | _, _ => none

/-- The ways in which an instruction has an effect, with the operands it has then. -/
inductive Instruction.Means (insn : Instruction) : Effect → Prop where
  | constant {target constant : Operand} {word : Word} :
      insn.mnemonic = "movi" ∨ insn.mnemonic = "l32r" → insn.operands = [target, constant] →
        target.isRegister = true → constant.value? = some word →
          insn.Means (.assign target ⟨none, word⟩)
  | add {target source amount : Operand} {word : Word} :
      insn.mnemonic = "addi" → insn.operands = [target, source, amount] →
        target.isRegister = true → source.isRegister = true → amount.value? = some word →
          insn.Means (.assign target ⟨some source, word⟩)
  | load {target base offset : Operand} {word : Word} :
      insn.mnemonic = "l32i" → insn.operands = [target, base, offset] →
        target.isRegister = true → base.isRegister = true → offset.value? = some word →
          insn.Means (.load target ⟨some base, word⟩)
  | store {source base offset : Operand} {word : Word} :
      insn.mnemonic = "s32i" → insn.operands = [source, base, offset] →
        source.isRegister = true → base.isRegister = true → offset.value? = some word →
          insn.Means (.store ⟨some base, word⟩ ⟨some source, 0⟩)

theorem Expression.ofOperands?_eq_some {base offset : Operand} {e : Expression}
    (h : Expression.ofOperands? base offset = some e) :
    base.isRegister = true ∧ ∃ word, offset.value? = some word ∧ e = ⟨some base, word⟩ := by
  unfold ofOperands? at h
  split at h
  · obtain ⟨word, hword, rfl⟩ := Option.map_eq_some_iff.1 h
    exact ⟨‹_›, word, hword, rfl⟩
  · cases h

theorem Instruction.means_of_effect? {insn : Instruction} {e : Effect} (h : insn.effect? = some e) :
    insn.Means e := by
  have hguard : ∀ {operand : Operand} {effect? : Option Effect},
      (if operand.isRegister then effect? else none) = some e →
        operand.isRegister = true ∧ effect? = some e := by
    intro operand effect? heq
    split at heq
    · exact ⟨‹_›, heq⟩
    · cases heq
  unfold effect? at h
  split at h
  · next target constant hmnemonic hoperands =>
    obtain ⟨htarget, h⟩ := hguard h
    obtain ⟨word, hword, rfl⟩ := Option.map_eq_some_iff.1 h
    exact .constant (.inl hmnemonic) hoperands htarget hword
  · next target constant hmnemonic hoperands =>
    obtain ⟨htarget, h⟩ := hguard h
    obtain ⟨word, hword, rfl⟩ := Option.map_eq_some_iff.1 h
    exact .constant (.inr hmnemonic) hoperands htarget hword
  · next target source amount hmnemonic hoperands =>
    obtain ⟨htarget, h⟩ := hguard h
    obtain ⟨value, hvalue, rfl⟩ := Option.map_eq_some_iff.1 h
    obtain ⟨hsource, word, hword, rfl⟩ := Expression.ofOperands?_eq_some hvalue
    exact .add hmnemonic hoperands htarget hsource hword
  · next target base offset hmnemonic hoperands =>
    obtain ⟨htarget, h⟩ := hguard h
    obtain ⟨address, haddress, rfl⟩ := Option.map_eq_some_iff.1 h
    obtain ⟨hbase, word, hword, rfl⟩ := Expression.ofOperands?_eq_some haddress
    exact .load hmnemonic hoperands htarget hbase hword
  · next source base offset hmnemonic hoperands =>
    obtain ⟨hsource, h⟩ := hguard h
    obtain ⟨address, haddress, rfl⟩ := Option.map_eq_some_iff.1 h
    obtain ⟨hbase, word, hword, rfl⟩ := Expression.ofOperands?_eq_some haddress
    exact .store hmnemonic hoperands hsource hbase hword
  · cases h

namespace Instruction.Means

variable {insn : Instruction} {e : Effect} (h : insn.Means e)

include h

theorem of_l32i (hmnemonic : insn.mnemonic = "l32i") :
    ∃ target base offset word, insn.operands = [target, base, offset] ∧ base.isRegister = true ∧
      offset.value? = some word ∧ e = .load target ⟨some base, word⟩ := by
  cases h with
  | load _ hoperands _ hbase hoffset => exact ⟨_, _, _, _, hoperands, hbase, hoffset, rfl⟩
  | constant hother => simp [hmnemonic] at hother
  | add hother | store hother => simp [hmnemonic] at hother

theorem of_addi (hmnemonic : insn.mnemonic = "addi") :
    ∃ target source amount word, insn.operands = [target, source, amount] ∧
      amount.value? = some word ∧ e = .assign target ⟨some source, word⟩ := by
  cases h with
  | add _ hoperands _ _ hamount => exact ⟨_, _, _, _, hoperands, hamount, rfl⟩
  | constant hother => simp [hmnemonic] at hother
  | load hother | store hother => simp [hmnemonic] at hother

theorem of_s32i (hmnemonic : insn.mnemonic = "s32i") :
    ∃ source base offset word, insn.operands = [source, base, offset] ∧
      source.isRegister = true ∧ base.isRegister = true ∧ offset.value? = some word ∧
        e = .store ⟨some base, word⟩ ⟨some source, 0⟩ := by
  cases h with
  | store _ hoperands hsource hbase hoffset =>
      exact ⟨_, _, _, _, hoperands, hsource, hbase, hoffset, rfl⟩
  | constant hother => simp [hmnemonic] at hother
  | add hother | load hother => simp [hmnemonic] at hother

/-- Only an instruction that loads a constant counts as a load for the shapes. -/
theorem of_loaded? {target constant : Operand} (hloaded : insn.loaded? = some (target, constant)) :
    ∃ word, constant.value? = some word ∧ e = .assign target ⟨none, word⟩ := by
  cases h with
  | constant hmnemonic hoperands _ hconstant =>
      rw [loaded?, if_pos hmnemonic, hoperands] at hloaded
      obtain ⟨rfl, rfl⟩ := Prod.mk.inj (Option.some.inj hloaded)
      exact ⟨_, hconstant, rfl⟩
  | add hmnemonic | load hmnemonic | store hmnemonic => simp [loaded?, hmnemonic] at hloaded

theorem isCall : insn.isCall = false := by
  cases h with
  | constant hmnemonic =>
      rcases hmnemonic with hmnemonic | hmnemonic <;>
        simp [Instruction.isCall, kind, Kind.ofMnemonic, hmnemonic]
  | add hmnemonic | load hmnemonic | store hmnemonic =>
      simp [Instruction.isCall, kind, Kind.ofMnemonic, hmnemonic]

theorem mnemonic_of_isStore (hstore : insn.isStore = true) : insn.mnemonic = "s32i" := by
  cases h with
  | constant hmnemonic =>
      rcases hmnemonic with hmnemonic | hmnemonic <;>
        simp [isStore, kind, Kind.ofMnemonic, hmnemonic] at hstore
  | add hmnemonic | load hmnemonic => simp [isStore, kind, Kind.ofMnemonic, hmnemonic] at hstore
  | store hmnemonic => exact hmnemonic

end Instruction.Means

def executeAll? (body : List Instruction) (m : WordMachine) : Option WordMachine :=
  body.foldlM (fun m insn => insn.effect?.map (·.perform m)) m

end FirmwareLift
