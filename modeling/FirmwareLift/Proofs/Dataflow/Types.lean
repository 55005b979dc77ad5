import FirmwareLift.Dataflow
import FirmwareLift.FlowGraph.Build
import FirmwareLift.Proofs.OrderedMap
import Mathlib.Data.List.Induction
import Mathlib.Tactic.SplitIfs

/-!
# Types of registers

The type of a register in closed form. The registers that get a type are the operands that are
registers, and the pins of GPIO calls. The strong rule that speaks of a register last decides; without
any, it is a truth value if a branch uses it, before or behind whatever else, and an integer otherwise.
-/

namespace FirmwareLift

variable {r : Operand} {insn : Instruction}

/-! ## Registers with a type -/

namespace Instruction

/-- The registers that the rules for one instruction give a type. -/
def typedRegisters (insn : Instruction) : List Operand :=
  (if insn.isBranch then insn.used else []) ++ insn.strongTypes.map (·.1)

/-- The instruction names the register, or passes a pin in it. -/
def Involves (insn : Instruction) (r : Operand) : Prop :=
  r.isRegister = true ∧ (r ∈ insn.operands ∨ insn.pin? = some r)

theorem involves_of_mem_used (h : r ∈ insn.used) : insn.Involves r := by
  obtain ⟨hr, hregister⟩ := List.mem_filter.1 h
  exact ⟨hregister, .inl (List.mem_of_mem_drop hr)⟩

theorem involves_of_mem_strongTypes (h : r ∈ insn.strongTypes.map (·.1)) : insn.Involves r := by
  obtain ⟨⟨operand, type⟩, hentry, rfl⟩ := List.mem_map.1 h
  obtain ⟨hentry, hregister⟩ := List.mem_filter.1 hentry
  refine ⟨hregister, ?_⟩
  rcases List.mem_append.1 hentry with hentry | hentry
  · exact .inl (List.of_mem_zip hentry).1
  · obtain ⟨pin, hpin, heq⟩ := List.mem_map.1 hentry
    obtain ⟨rfl, -⟩ := Prod.mk.inj heq
    exact .inr (Option.mem_toList.1 hpin)

theorem involves_of_mem_typedRegisters (h : r ∈ insn.typedRegisters) : insn.Involves r := by
  rcases List.mem_append.1 h with h | h
  · split at h
    · exact involves_of_mem_used h
    · exact absurd h List.not_mem_nil
  · exact involves_of_mem_strongTypes h

theorem mem_typedRegisters_of_pin? (hregister : r.isRegister = true) (hpin : insn.pin? = some r) :
    r ∈ insn.typedRegisters := by
  refine List.mem_append_right _ (List.mem_map.2 ⟨(r, .pin), ?_, rfl⟩)
  simp [strongTypes, hpin, hregister]

end Instruction

namespace TypeMap

variable {types : TypeMap}

theorem mem_keys_setAll {entries : List (Operand × RegisterType)} :
    r ∈ (types.setAll entries).keys ↔ r ∈ types.keys ∨ r ∈ entries.map (·.1) := by
  induction entries generalizing types with
  | nil => simp [setAll]
  | cons entry rest ih =>
      show r ∈ (setAll (types.insert entry.1 entry.2) rest).keys ↔ _
      rw [ih, OrderedMap.mem_keys_insert, List.map_cons, List.mem_cons, or_assoc, or_left_comm]

theorem mem_keys_setNew {type : RegisterType} {registers : List Operand} :
    r ∈ (types.setNew type registers).keys ↔ r ∈ types.keys ∨ r ∈ registers := by
  induction registers generalizing types with
  | nil => simp [setNew]
  | cons register rest ih =>
      show r ∈ (setNew (types.insertIfNew register type) type rest).keys ↔ _
      rw [ih, OrderedMap.mem_keys_insertIfNew, List.mem_cons, or_assoc, or_left_comm]

theorem mem_keys_step :
    r ∈ (types.step insn).keys ↔ r ∈ types.keys ∨ r ∈ insn.typedRegisters := by
  rw [step, mem_keys_setAll, mem_keys_setNew, or_assoc, Instruction.typedRegisters, List.mem_append]

theorem mem_keys_foldl_step {insns : List Instruction} :
    r ∈ (insns.foldl step types).keys ↔
      r ∈ types.keys ∨ ∃ insn ∈ insns, r ∈ insn.typedRegisters := by
  induction insns generalizing types with
  | nil => simp
  | cons insn rest ih =>
      simp only [List.foldl_cons, ih, mem_keys_step, List.mem_cons, exists_eq_or_imp, or_assoc]

end TypeMap

/-- The registers with a type are those that an instruction names or passes a pin in. -/
theorem FlowGraph.mem_keys_inferTypes {g : FlowGraph} :
    r ∈ g.inferTypes.keys ↔ ∃ insn ∈ g.instructions, insn.Involves r := by
  rw [inferTypes, TypeMap.mem_keys_setNew, TypeMap.mem_keys_foldl_step, List.mem_flatMap]
  constructor
  · rintro ((hempty | ⟨insn, hinsn, h⟩) | ⟨insn, hinsn, h⟩)
    · exact absurd hempty List.not_mem_nil
    · exact ⟨insn, hinsn, Instruction.involves_of_mem_typedRegisters h⟩
    · obtain ⟨hr, hregister⟩ := List.mem_filter.1 h
      exact ⟨insn, hinsn, hregister, .inl hr⟩
  · rintro ⟨insn, hinsn, hregister, hr | hpin⟩
    · exact .inr ⟨insn, hinsn, List.mem_filter.2 ⟨hr, hregister⟩⟩
    · exact .inl (.inr ⟨insn, hinsn, Instruction.mem_typedRegisters_of_pin? hregister hpin⟩)

/-! ## Rules for one instruction -/

namespace Instruction

def integerOperations : List String :=
  ["add", "sub", "and", "or", "xor", "mull", "sll", "srl", "neg", "mov", "movi", "addi", "slli",
    "srli", "l32r"]

def floatOperations : List String :=
  ["add.s", "sub.s", "mul.s", "div.s"]

def narrowAccesses : List String :=
  ["l8ui", "s8i"]

def wideAccesses : List String :=
  ["l32i", "s32i"]

/-- The comment speaks of a pin. -/
def NotesPin (insn : Instruction) : Prop :=
  ∃ comment ∈ insn.comment, "GPIO".toList <:+: comment.toList

/-- A call passes its pin as the first argument, and any other instruction has it in front. -/
def Pins (insn : Instruction) (r : Operand) : Prop :=
  insn.NotesPin ∧ (if insn.isCall then insn.argumentRegister? 0 else insn.operands.head?) = some r

theorem commentHas_iff : insn.commentHas "GPIO" = true ↔ insn.NotesPin := by
  simp only [commentHas, Option.any_eq_true, Text.contains_iff, NotesPin, Option.mem_def]

instance : Decidable insn.NotesPin :=
  decidable_of_iff _ commentHas_iff

instance : Decidable (insn.Pins r) :=
  inferInstanceAs (Decidable (_ ∧ _))

/-- The type that the operation gives to a register, the second operand taken before the first. -/
def operationType? (insn : Instruction) (r : Operand) : Option String :=
  if insn.mnemonic ∈ wideAccesses then
    if insn.operands[1]? = some r then some "uint32_t*"
    else if insn.operands[0]? = some r then some "uint32_t"
    else none
  else if insn.operands[0]? ≠ some r then none
  else if insn.mnemonic ∈ integerOperations then some "int"
  else if insn.mnemonic ∈ floatOperations then some "float"
  else if insn.mnemonic ∈ narrowAccesses then some "uint8_t"
  else none

/-- The type that the strong rules for an instruction leave with a register. -/
def ruledType? (insn : Instruction) (r : Operand) : Option String :=
  if insn.Pins r then some "gpio_num_t" else insn.operationType? r

theorem pin?_eq_some_iff : insn.pin? = some r ↔ insn.Pins r := by
  rw [pin?, Pins, ← commentHas_iff]
  split <;> simp_all

theorem operandTypes_eq (insn : Instruction) :
    insn.operandTypes =
      if insn.mnemonic ∈ wideAccesses then [.word, .wordPointer]
      else if insn.mnemonic ∈ integerOperations then [.int]
      else if insn.mnemonic ∈ floatOperations then [.float]
      else if insn.mnemonic ∈ narrowAccesses then [.byte]
      else [] := by
  unfold operandTypes
  split <;> simp_all [wideAccesses, integerOperations, floatOperations, narrowAccesses]

theorem isRegister_of_argumentRegister? (h : insn.argumentRegister? 0 = some r) :
    r.isRegister = true := by
  obtain ⟨window, hwindow, rfl⟩ := Option.map_eq_some_iff.1 h
  unfold callWindow? at hwindow
  split at hwindow <;> cases hwindow <;> decide

theorem involves_iff :
    insn.Involves r ↔ r ∈ insn.operands ∧ r.isRegister = true ∨
      insn.isCall = true ∧ insn.NotesPin ∧ insn.argumentRegister? 0 = some r := by
  rw [Involves, pin?_eq_some_iff, Pins]
  constructor
  · rintro ⟨hr, hoperand | ⟨hnotes, hpin⟩⟩
    · exact .inl ⟨hoperand, hr⟩
    · split at hpin
      · next hcall => exact .inr ⟨hcall, hnotes, hpin⟩
      · exact .inl ⟨List.mem_of_head? hpin, hr⟩
  · rintro (⟨hoperand, hr⟩ | ⟨hcall, hnotes, hpin⟩)
    · exact ⟨hr, .inl hoperand⟩
    · exact ⟨isRegister_of_argumentRegister? hpin, .inr ⟨hnotes, by rw [if_pos hcall, hpin]⟩⟩

end Instruction

/-! ## Rules in their order -/

namespace TypeMap

variable {types : TypeMap}

def text? (types : TypeMap) (r : Operand) : Option String :=
  (types.get? r).map RegisterType.text

/-- The type of the last entry for a register. -/
def lastText? (entries : List (Operand × RegisterType)) (r : Operand) : Option String :=
  (entries.filterMap fun entry => if entry.1 = r then some entry.2.text else none).getLast?

theorem text?_insert {register : Operand} {type : RegisterType} :
    text? (types.insert register type) r =
      if r = register then some type.text else types.text? r := by
  rw [text?, OrderedMap.get?_insert]
  split <;> rfl

theorem lastText?_cons {entry : Operand × RegisterType} {rest : List (Operand × RegisterType)} :
    lastText? (entry :: rest) r =
      (lastText? rest r).or (if r = entry.1 then some entry.2.text else none) := by
  rw [lastText?, lastText?, List.filterMap_cons]
  by_cases hr : r = entry.1
  · subst hr
    cases hrest : (rest.filterMap _).getLast? <;> simp [List.getLast?_cons, hrest]
  · simp [hr, Ne.symm hr]

theorem lastText?_append {front behind : List (Operand × RegisterType)} :
    lastText? (front ++ behind) r = (lastText? behind r).or (lastText? front r) := by
  rw [lastText?, List.filterMap_append, List.getLast?_append]
  rfl

theorem lastText?_filter_isRegister {entries : List (Operand × RegisterType)}
    (hr : r.isRegister = true) :
    lastText? (entries.filter fun entry => Operand.isRegister entry.1) r = lastText? entries r := by
  induction entries with
  | nil => rfl
  | cons entry rest ih =>
      rw [List.filter_cons, lastText?_cons]
      split
      · rw [lastText?_cons, ih]
      · next hentry =>
        have hne : r ≠ entry.1 := by
          rintro rfl
          exact hentry hr
        rw [ih, if_neg hne, Option.or_none]

theorem text?_setAll {entries : List (Operand × RegisterType)} :
    (types.setAll entries).text? r = (lastText? entries r).or (types.text? r) := by
  induction entries generalizing types with
  | nil => rfl
  | cons entry rest ih =>
      show (setAll (types.insert entry.1 entry.2) rest).text? r = _
      rw [ih, text?_insert, lastText?_cons, Option.or_assoc]
      split <;> rfl

theorem text?_setNew {type : RegisterType} {registers : List Operand} :
    (types.setNew type registers).text? r =
      (types.text? r).or (if r ∈ registers then some type.text else none) := by
  induction registers generalizing types with
  | nil => simp [setNew]
  | cons register rest ih =>
      show (setNew (types.insertIfNew register type) type rest).text? r = _
      have hfirst : text? (types.insertIfNew register type) r =
          (types.text? r).or (if r = register then some type.text else none) := by
        rw [OrderedMap.insertIfNew]
        split
        · next hsome =>
          obtain ⟨old, hold⟩ := Option.isSome_iff_exists.1 hsome
          split
          · next heq => simp [text?, heq, hold]
          · rw [Option.or_none]
        · next hnone =>
          rw [text?_insert]
          split
          · next heq => simp [text?, heq, Option.not_isSome_iff_eq_none.1 hnone]
          · rw [Option.or_none]
      rw [ih, hfirst, Option.or_assoc]
      by_cases hr : r = register <;> simp [hr]

theorem lastText?_operandTypes :
    lastText? (insn.operands.zip insn.operandTypes) r = insn.operationType? r := by
  rw [Instruction.operandTypes_eq, Instruction.operationType?]
  rcases insn.operands with _ | ⟨first, _ | ⟨second, rest⟩⟩
  · simp [lastText?]
  · split_ifs <;> simp_all [lastText?, RegisterType.text]
  · split_ifs <;> simp_all [lastText?, RegisterType.text]

/-- The entries that an instruction makes for a register end with the type that its rules leave. -/
theorem lastText?_strongTypes (hr : r.isRegister = true) :
    lastText? insn.strongTypes r = insn.ruledType? r := by
  rw [Instruction.strongTypes, lastText?_filter_isRegister hr, lastText?_append,
    lastText?_operandTypes, Instruction.ruledType?]
  by_cases hpins : insn.Pins r
  · rw [if_pos hpins, Instruction.pin?_eq_some_iff.2 hpins]
    simp [lastText?, RegisterType.text]
  · have hpin := mt Instruction.pin?_eq_some_iff.1 hpins
    rw [if_neg hpins]
    cases hp : insn.pin? with
    | none => rfl
    | some pin => simp_all [lastText?]

theorem text?_step (hr : r.isRegister = true) :
    (types.step insn).text? r = (insn.ruledType? r).or ((types.text? r).or
      (if insn.isBranch = true ∧ r ∈ insn.used then some "bool" else none)) := by
  rw [step, text?_setAll, lastText?_strongTypes hr, text?_setNew]
  by_cases hbranch : insn.isBranch = true <;> simp [hbranch, RegisterType.text]

/-- A strong rule counts if it is the last one, a branch if nothing else gave a type. -/
theorem text?_foldl_step {insns : List Instruction} (hr : r.isRegister = true) :
    (insns.foldl step types).text? r =
      ((insns.filterMap (·.ruledType? r)).getLast?).or ((types.text? r).or
        (if ∃ branch ∈ insns, branch.isBranch = true ∧ r ∈ branch.used then some "bool"
          else none)) := by
  induction insns using List.reverseRecOn with
  | nil => simp
  | append_singleton insns insn ih =>
      have hwritten : ([insn].filterMap (·.ruledType? r)).getLast? = insn.ruledType? r := by
        cases hrule : insn.ruledType? r <;> simp [hrule]
      have hbranches :
          (if ∃ branch ∈ insns ++ [insn], branch.isBranch = true ∧ r ∈ branch.used then some "bool"
            else none) =
          (if ∃ branch ∈ insns, branch.isBranch = true ∧ r ∈ branch.used then some "bool"
            else none).or
          (if insn.isBranch = true ∧ r ∈ insn.used then some "bool" else none) := by
        simp only [List.mem_append, List.mem_singleton, or_and_right, exists_or, exists_eq_left]
        split_ifs <;> simp_all
      rw [List.foldl_append, List.foldl_cons, List.foldl_nil, text?_step hr, ih,
        List.filterMap_append, List.getLast?_append, hwritten, hbranches]
      simp only [Option.or_assoc]

end TypeMap

namespace FlowGraph

/-- The closed form of inferred types: the last strong rule decides, wherever the branches are. -/
structure TypedByRules (g : FlowGraph) (types : TypeMap) : Prop where
  mem_keys : ∀ r : Operand, r ∈ types.keys ↔
    (∃ insn ∈ g.instructions, r ∈ insn.operands ∧ r.isRegister = true) ∨
      ∃ call ∈ g.instructions,
        call.isCall = true ∧ call.NotesPin ∧ call.argumentRegister? 0 = some r
  text?_eq : ∀ r ∈ types.keys, types.text? r =
    some ((g.instructions.filterMap (·.ruledType? r)).getLast?.getD
      (if ∃ branch ∈ g.instructions, branch.isBranch = true ∧ r ∈ branch.used then "bool"
        else "int"))

variable {g : FlowGraph}

theorem text?_inferTypes (hr : r.isRegister = true) :
    g.inferTypes.text? r = ((g.instructions.filterMap (·.ruledType? r)).getLast?.or
      (if ∃ branch ∈ g.instructions, branch.isBranch = true ∧ r ∈ branch.used then some "bool"
        else none)).or
      (if r ∈ g.instructions.flatMap fun insn => insn.operands.filter Operand.isRegister
        then some "int" else none) := by
  rw [inferTypes, TypeMap.text?_setNew, TypeMap.text?_foldl_step hr]
  rfl

/-- The inferred types are those of the last strong rules, and else of branches. -/
theorem typedByRules_inferTypes (g : FlowGraph) : g.TypedByRules g.inferTypes where
  mem_keys r := by
    simp only [mem_keys_inferTypes, Instruction.involves_iff, and_or_left, exists_or]
  text?_eq r hkey := by
    obtain ⟨insn, -, hr, -⟩ := mem_keys_inferTypes.1 hkey
    have htext : (g.inferTypes.text? r).isSome = true :=
      Option.isSome_map.trans (OrderedMap.isSome_get?_iff.2 hkey)
    rw [text?_inferTypes hr] at htext ⊢
    cases hrule : (g.instructions.filterMap (·.ruledType? r)).getLast? with
    | some type => rfl
    | none =>
        rw [hrule, Option.none_or] at htext
        rw [Option.none_or, Option.getD_none]
        split
        · rfl
        · next hbranch =>
          rw [if_neg hbranch, Option.none_or] at htext
          rw [Option.none_or, if_pos (by_contra fun hnone => ?_)]
          rw [if_neg hnone] at htext
          cases htext

/-- A register that is loaded through itself, and a pin that no operand names. -/
example :
    (ofListing
      [{ address := 0x0, word := 0, mnemonic := "beqz", operands := ["a3", "0x8"] },
        { address := 0x4, word := 0, mnemonic := "l32i", operands := ["a3", "a3", "0x0"] },
        { address := 0x8, word := 0, mnemonic := "call8", operands := ["gpio_set_level"],
          comment := some "GPIO: gpio_set_level" },
        { address := 0xc, word := 0, mnemonic := "bnez", operands := ["a4", "0x0"] }]
    ).inferTypes.toList = [("a10", .pin), ("a3", .wordPointer), ("a4", .bool)] := by
  decide +kernel

end FlowGraph

end FirmwareLift
