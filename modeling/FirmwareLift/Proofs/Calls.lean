import FirmwareLift.Descriptor.Read
import FirmwareLift.Proofs.Discovery
import FirmwareLift.Proofs.Encoding
import FirmwareLift.Proofs.Operand
import FirmwareLift.Statement

/-!
# Names of calls

A direct call shows the last name of its target, and the function that is found there has the first
one. So a call names its function unless the address has several names.
-/

namespace FirmwareLift

open Text.Numeral (hex bareHex8)

/-- The mnemonics of the calls whose target is in the word. -/
def directCalls : List String :=
  ["call0", "call4", "call8", "call12"]

theorem mem_directCalls {mnemonic : String} :
    mnemonic ∈ directCalls ↔
      mnemonic = "call0" ∨ mnemonic = "call4" ∨ mnemonic = "call8" ∨ mnemonic = "call12" := by
  simp [directCalls]

/-! ## Encoding -/

namespace Encoding

variable {word : Word} {form : Form}

/-- No other format has the mnemonic of a direct call. -/
theorem call?_of_directCall (h : form? word = some form) (hcall : form.mnemonic ∈ directCalls) :
    call? (word.field 4 4) (signExtend 24 (word.field 8 24)) = some form := by
  have hcalls : ∀ mnemonic ∈ directCalls, format mnemonic = 5 := by decide
  have hformat := field_of_form? h
  rw [hcalls _ hcall] at hformat
  simpa only [form?, if_neg (ne_zero_of_form? h), hformat] using h

theorem operands_of_directCall (h : form? word = some form)
    (hcall : form.mnemonic ∈ directCalls) :
    form.operands = [.target (signExtend 24 (word.field 8 24))] := by
  have h := call?_of_directCall h hcall
  unfold call? at h
  split at h <;> cases h <;> rfl

end Encoding

/-- The operand of a direct call shows its target. -/
theorem Image.operands_decodeWord {image : Image} {symbols : SymbolTable} {a : Address}
    {word : Word} (hcall : (image.decodeWord symbols a word).mnemonic ∈ directCalls) :
    (image.decodeWord symbols a word).operands =
      [(symbols.shownAt? (word.callTarget a)).getD (hex (word.callTarget a))] := by
  unfold Image.decodeWord at hcall ⊢
  split at hcall
  next =>
    have hnop : "nop" ∉ directCalls := by decide
    exact absurd hcall hnop
  next form hform =>
    simp only [Encoding.operands_of_directCall hform hcall]
    rfl

/-! ## Names -/

theorem head?_eq_getLast?_iff {α : Type} {l : List α} (h : l.Nodup) :
    l.head? = l.getLast? ↔ l.length ≤ 1 := by
  match l with
  | [] => simp
  | [x] => simp
  | x :: y :: rest =>
      -- The last element stands behind the first one, so it is another one.
      have hlast : (y :: rest).getLast (List.cons_ne_nil _ _) ∈ y :: rest := List.getLast_mem _
      have hne : x ≠ (y :: rest).getLast (List.cons_ne_nil _ _) := fun heq =>
        (List.nodup_cons.1 h).1 (heq ▸ hlast)
      simp [List.getLast?_eq_getLast_of_ne_nil, hne]

namespace SymbolTable

variable {symbols : SymbolTable} {a : Address} {name : String}

/-- Every name is an identifier and no register, so an operand that shows it is a name. -/
def Legible (symbols : SymbolTable) : Prop :=
  ∀ name ∈ symbols.keys, Operand.isIdentifier name.toList = true ∧ Operand.isRegister name = false

instance (symbols : SymbolTable) : Decidable symbols.Legible :=
  inferInstanceAs (Decidable (∀ name ∈ symbols.keys,
    Operand.isIdentifier name.toList = true ∧ Operand.isRegister name = false))

theorem namesAt_sublist (symbols : SymbolTable) (a : Address) :
    (symbols.namesAt a).Sublist symbols.keys :=
  List.filter_sublist.map _

theorem nodup_namesAt (symbols : SymbolTable) (a : Address) : (symbols.namesAt a).Nodup := by
  have hascending := symbols.ascending.sublist (symbols.namesAt_sublist a)
  exact hascending.imp fun hlt => Std.ne_of_lt hlt

theorem nameAt?_eq_shownAt?_iff :
    symbols.nameAt? a = symbols.shownAt? a ↔ (symbols.namesAt a).length ≤ 1 :=
  head?_eq_getLast?_iff (symbols.nodup_namesAt a)

end SymbolTable

namespace Instruction

variable {insn : Instruction} {name : String} {a : Address}

theorem displayName?_of_name (hcomment : insn.comment = none) (hoperands : insn.operands = [name])
    (hidentifier : Operand.isIdentifier name.toList = true)
    (hregister : Operand.isRegister name = false) : insn.displayName? = some name := by
  simp [displayName?, hcomment, hoperands, hidentifier, hregister]

theorem displayName?_of_hex (hcomment : insn.comment = none) (hoperands : insn.operands = [hex a]) :
    insn.displayName? = none := by
  have hidentifier : Operand.isIdentifier (hex a).toList = false := by
    rw [hex, String.toList_ofList]
    rfl
  simp [displayName?, hcomment, hoperands, hidentifier]

theorem statement?_of_directCall (h : insn.mnemonic ∈ directCalls) :
    insn.statement? = some insn.callText := by
  rcases mem_directCalls.1 h with h | h | h | h <;> simp [statement?, binaryOperator?, h]

theorem isCall_of_directCall (h : insn.mnemonic ∈ directCalls) : insn.isCall = true := by
  rcases mem_directCalls.1 h with h | h | h | h <;> simp [isCall, kind, Kind.ofMnemonic, h]

theorem target?_of_directCall (h : insn.mnemonic ∈ directCalls)
    (hoperands : insn.operands = [hex a]) : insn.target? = some a := by
  simp [target?, isCall_of_directCall h, hoperands, Operand.value?_hex]

end Instruction

/-! ## Calls -/

namespace Descriptor

variable {d : Descriptor} {image : Image} {entry a : Address} {word : Word}

theorem functionName_of_unnamed (h : d.knownFunctions.shownAt? a = none) :
    d.functionName a = s!"func_{bareHex8 a}" := by
  have hnames : d.knownFunctions.namesAt a = [] := List.getLast?_eq_none_iff.1 h
  rw [functionName, SymbolTable.nameAt?, hnames]
  rfl

/-- The last name of an address is the name of its function if the address has no other name. -/
theorem shown_eq_functionName_iff :
    (d.knownFunctions.shownAt? a).getD (d.functionName a) = d.functionName a ↔
      (d.knownFunctions.namesAt a).length ≤ 1 := by
  rw [← SymbolTable.nameAt?_eq_shownAt?_iff, functionName, SymbolTable.nameAt?,
    SymbolTable.shownAt?]
  cases d.knownFunctions.namesAt a with
  | nil => simp
  | cons name rest => simp [List.getLast?_cons, eq_comm]

theorem callText_decodeWord (hnames : d.knownFunctions.Legible)
    (hcall : (image.decodeWord d.knownFunctions a word).mnemonic ∈ directCalls) :
    (image.decodeWord d.knownFunctions a word).callText =
      s!"{(d.knownFunctions.shownAt? (word.callTarget a)).getD
        (d.functionName (word.callTarget a))}();" := by
  have hoperands := Image.operands_decodeWord hcall
  have hcomment := image.comment_decodeWord d.knownFunctions a word
  rw [Instruction.callText]
  cases hshown : d.knownFunctions.shownAt? (word.callTarget a) with
  | some name =>
      rw [hshown, Option.getD_some] at hoperands
      have hmem := (d.knownFunctions.namesAt_sublist _).subset (List.mem_of_getLast? hshown)
      obtain ⟨hidentifier, hregister⟩ := hnames name hmem
      rw [Instruction.displayName?_of_name hcomment hoperands hidentifier hregister,
        Option.getD_some]
  | none =>
      rw [hshown, Option.getD_none] at hoperands
      rw [Instruction.displayName?_of_hex hcomment hoperands,
        Instruction.target?_of_directCall hcall hoperands, Option.getD_none,
        functionName_of_unnamed hshown]
      rfl

theorem name_of_mem_discover {f : Bounds} (hf : f ∈ d.discover image entry) :
    f.name = d.functionName f.start := by
  rw [discover_eq] at hf
  obtain ⟨range, -, rfl⟩ := List.mem_map.1 hf
  rfl

/--
A direct call of a function that was found is written with the last known name of its start, which
is the name of the function if that start has one name at most, and only then.
-/
theorem call_shows_last_name {f : Bounds} (hnames : d.knownFunctions.Legible)
    (hf : f ∈ d.discover image entry)
    (hcall : (image.decodeWord d.knownFunctions a word).mnemonic ∈ directCalls)
    (htarget : word.callTarget a = f.start) :
    (image.decodeWord d.knownFunctions a word).statement? =
        some s!"{(d.knownFunctions.shownAt? f.start).getD f.name}();" ∧
      ((image.decodeWord d.knownFunctions a word).statement? = some s!"{f.name}();" ↔
        (d.knownFunctions.namesAt f.start).length ≤ 1) := by
  have hname := name_of_mem_discover hf
  have htext := callText_decodeWord hnames hcall
  rw [htarget, ← hname] at htext
  have hstatement := Instruction.statement?_of_directCall hcall
  rw [htext] at hstatement
  refine ⟨hstatement, ?_⟩
  rw [hstatement, Option.some_inj, ← shown_eq_functionName_iff, ← hname]
  exact String.append_left_inj _

/-- A device with two names for one address. -/
def twiceNamed : Descriptor :=
  { esp32 with knownFunctions := .ofList [("alpha", 0x400d0004), ("beta", 0x400d0004)] }

/-- A call of the function right behind it. -/
def callNext : Image where
  base := 0x400d0000
  bytes := #[0x05, 0x00, 0x00, 0x00, 0x0d, 0x00, 0x00, 0x00]

def alpha : Bounds where
  start := 0x400d0004
  stop := 0x400d0008
  name := "alpha"

theorem call_shows_beta :
    (twiceNamed.knownFunctions.Legible ∧ alpha ∈ twiceNamed.discover callNext 0x400d0000 ∧
      (callNext.decodeWord twiceNamed.knownFunctions 0x400d0000 5).mnemonic ∈ directCalls ∧
      Word.callTarget 5 0x400d0000 = alpha.start) ∧
    (callNext.decodeWord twiceNamed.knownFunctions 0x400d0000 5).statement? =
        some s!"{(twiceNamed.knownFunctions.shownAt? alpha.start).getD alpha.name}();" ∧
      ((callNext.decodeWord twiceNamed.knownFunctions 0x400d0000 5).statement? =
          some s!"{alpha.name}();" ↔
        (twiceNamed.knownFunctions.namesAt alpha.start).length ≤ 1) := by
  have hnames : twiceNamed.knownFunctions.Legible := by decide
  have hfound : alpha ∈ twiceNamed.discover callNext 0x400d0000 := by decide +kernel
  have hcall : (callNext.decodeWord twiceNamed.knownFunctions 0x400d0000 5).mnemonic ∈
      directCalls := by decide +kernel
  have htarget : Word.callTarget 5 0x400d0000 = alpha.start := by decide
  exact ⟨⟨hnames, hfound, hcall, htarget⟩, call_shows_last_name hnames hfound hcall htarget⟩

/-- Under a valid descriptor, a call does not show the name of the function that it leads to. -/
theorem call_misses_alpha :
    parse "\x7b\"known_functions\": \x7b\"alpha\": 1074593796, \"beta\": 1074593796\x7d\x7d" =
        .ok twiceNamed ∧
      twiceNamed.knownFunctions.Legible ∧ alpha ∈ twiceNamed.discover callNext 0x400d0000 ∧
      (callNext.decodeWord twiceNamed.knownFunctions 0x400d0000 5).mnemonic ∈ directCalls ∧
      Word.callTarget 5 0x400d0000 = alpha.start ∧
      (callNext.decodeWord twiceNamed.knownFunctions 0x400d0000 5).statement? ≠
        some s!"{alpha.name}();" := by
  decide +kernel

end Descriptor

end FirmwareLift
