import FirmwareLift.Proofs.Dataflow.Execution
import FirmwareLift.Proofs.Detection.Constants
import FirmwareLift.Proofs.Targets

/-!
# Values of constants

Whether the constant that is known of a register is what the register holds once the instructions
before have been executed. It is, unless the constant comes from a literal that cannot be fetched: the
address of the literal then stands in for its value.
-/

namespace FirmwareLift

namespace Instruction

variable (insn : Instruction)

/-- The constant that `movi` loads, in two's complement; its upper bits stand below the lower. -/
def immediate : Int :=
  (insn.word.toBitVec.extractLsb' 8 4 ++ insn.word.toBitVec.extractLsb' 16 8).toInt

/-- Where the literal of `l32r` stands, modulo 2^32. -/
def literalAddress : Address :=
  .ofInt (insn.address.toNat + 4 + 4 * (insn.word.toBitVec.extractLsb' 8 16).toInt)

/-- An instruction that loads a literal loads one that the image holds. -/
def FindsLiteral (image : Image) : Prop :=
  insn.mnemonic = "l32r" → ∃ word, image.fetch insn.literalAddress = .ok word

end Instruction

/-- The instructions are those that the image holds, up to their comments. -/
def Block.Disassembled (image : Image) (symbols : SymbolTable) (b : Block) : Prop :=
  ∀ insn ∈ b.instructions, insn.bare = image.decode symbols insn.address

namespace Interpretation

variable {Memory : Type}

/-- `movi` loads its immediate, and `l32r` the word at its literal if the image holds one. -/
structure LoadsConstants (I : Interpretation Word Memory) (image : Image) : Prop where
  immediate : ∀ insn memory values, insn.mnemonic = "movi" →
    I.write insn memory values = .ofInt insn.immediate
  literal : ∀ insn memory values word, insn.mnemonic = "l32r" →
    image.fetch insn.literalAddress = .ok word → I.write insn memory values = word

def executeAll {Value : Type} (I : Interpretation Value Memory) (insns : List Instruction)
    (m : Machine Value Memory) : Machine Value Memory :=
  insns.foldl (fun m insn => I.execute insn m) m

end Interpretation

/-- Behind the instructions the register holds the constant, whatever else instructions do. -/
def Holds (image : Image) (before : List Instruction) (register : Operand) (constant : Word) :
    Prop :=
  ∀ (Memory : Type) (I : Interpretation Word Memory) (m : Machine Word Memory),
    I.LoadsConstants image → (I.executeAll before m).registers register = constant

/-! ## Execution -/

/-- A register holds what the last instruction that defines it has written. -/
theorem exists_write {Value Memory : Type} (I : Interpretation Value Memory)
    (m : Machine Value Memory) {before : List Instruction} {register : Operand}
    {load : Instruction} (h : lastDefinition? before register = some load) :
    ∃ memory values,
      (I.executeAll before m).registers register = I.write load memory values := by
  induction before using List.reverseRecOn with
  | nil => cases h
  | append_singleton before insn ih =>
      have hexecute : I.executeAll (before ++ [insn]) m = I.execute insn (I.executeAll before m) := by
        rw [Interpretation.executeAll, List.foldl_append]
        rfl
      rw [lastDefinition?_append] at h
      rw [hexecute, Interpretation.execute]
      split at h
      · next hdefined =>
        cases h
        exact ⟨_, _, if_pos hdefined⟩
      · next hdefined =>
        obtain ⟨memory, values, hwrite⟩ := ih h
        exact ⟨memory, values, (if_neg hdefined).trans hwrite⟩

/-! ## Operands of loads -/

/-- The two fields of the immediate make up one number of twelve bits. -/
theorem signExtend_immediate (insn : Instruction) :
    signExtend 12 (insn.word.field 8 4 * 256 + insn.word.field 16 8) = insn.immediate := by
  have hlow := (insn.word.toBitVec.extractLsb' 16 8).isLt
  rw [Instruction.immediate, ← signExtend_toNat _ (by decide), BitVec.toNat_append, Nat.or_comm,
    or_shiftLeft hlow, field_eq_toNat, field_eq_toNat, Nat.shiftLeft_eq, Nat.add_comm]

theorem natAbs_immediate_lt (insn : Instruction) : insn.immediate.natAbs < UInt32.size := by
  have hbits : ∀ bits : BitVec 12, bits.toInt.natAbs < UInt32.size := by
    intro bits
    have hlow := bits.le_toInt
    have hhigh := bits.toInt_lt
    simp only [UInt32.size]
    omega
  exact hbits _

theorem literalAddress_eq (insn : Instruction) :
    relativeAddress insn.address (signExtend 16 (insn.word.field 8 16)) = insn.literalAddress := by
  rw [signExtend_field _ _ (by decide), relativeAddress_eq_ofInt, Instruction.literalAddress]

namespace Image

variable {image : Image} {symbols : SymbolTable} {insn : Instruction}

/-- What is decoded, other than a placeholder, has the operands that the form of its word says. -/
theorem exists_form_of_decode (h : insn.bare = image.decode symbols insn.address)
    (hnop : insn.mnemonic ≠ "nop") :
    ∃ form, Encoding.form? insn.word = some form ∧ form.mnemonic = insn.mnemonic ∧
      insn.operands = form.operands.map (·.text symbols image insn.address) := by
  have hmnemonic : insn.mnemonic = insn.bare.mnemonic := rfl
  have hword : insn.word = insn.bare.word := rfl
  have hoperands : insn.operands = insn.bare.operands := rfl
  rw [hmnemonic, h] at hnop
  rw [hmnemonic, hword, hoperands, h]
  generalize insn.address = a at hnop ⊢
  unfold decode decode? at hnop ⊢
  cases hfetch : image.fetch a with
  | error _ =>
      rw [hfetch] at hnop
      exact absurd rfl hnop
  | ok word =>
      rw [hfetch] at hnop
      simp only [Except.map] at hnop ⊢
      rw [word_decodeWord]
      unfold decodeWord at hnop ⊢
      cases hform : Encoding.form? word with
      | none =>
          rw [hform] at hnop
          exact absurd rfl hnop
      | some form => exact ⟨form, rfl, rfl, rfl⟩

theorem value?_of_constant (h : insn.bare = image.decode symbols insn.address)
    (hconstant : insn.mnemonic = "movi") :
    insn.operands[1]?.bind Operand.value? = some (.ofInt insn.immediate) := by
  obtain ⟨form, hform, hmnemonic, hoperands⟩ :=
    exists_form_of_decode h (by rw [hconstant]; decide)
  rw [hoperands, Encoding.operands_of_constant hform (hmnemonic.trans hconstant),
    signExtend_immediate, List.getElem?_map, List.getElem?_cons_succ, List.getElem?_cons_zero,
    Option.map_some, Option.bind_some, Encoding.OperandForm.text]
  exact Operand.value?_integer (natAbs_immediate_lt insn)

theorem value?_of_literal (h : insn.bare = image.decode symbols insn.address)
    (hliteral : insn.mnemonic = "l32r") :
    insn.operands[1]?.bind Operand.value? =
      some ((image.fetch insn.literalAddress).toOption.getD insn.literalAddress) := by
  obtain ⟨form, hform, hmnemonic, hoperands⟩ :=
    exists_form_of_decode h (by rw [hliteral]; decide)
  rw [hoperands, Encoding.operands_of_literal hform (hmnemonic.trans hliteral),
    List.getElem?_map, List.getElem?_cons_succ, List.getElem?_cons_zero, Option.map_some,
    Option.bind_some, Encoding.OperandForm.text, literalAddress_eq]
  exact Operand.value?_hex _

/-- A constant is that of a load, and shows its value or, for a literal out of reach, its address. -/
theorem eq_of_shownConstant? {constant : Word} (h : insn.bare = image.decode symbols insn.address)
    (hconstant : insn.shownConstant? = some constant) :
    insn.mnemonic = "movi" ∧ constant = .ofInt insn.immediate ∨
      insn.mnemonic = "l32r" ∧
        constant = (image.fetch insn.literalAddress).toOption.getD insn.literalAddress := by
  rw [Instruction.shownConstant?] at hconstant
  split at hconstant
  · next hmnemonic =>
    rcases hmnemonic with hmovi | hliteral
    · rw [value?_of_constant h hmovi] at hconstant
      exact .inl ⟨hmovi, (Option.some.inj hconstant).symm⟩
    · rw [value?_of_literal h hliteral] at hconstant
      exact .inr ⟨hliteral, (Option.some.inj hconstant).symm⟩
  · cases hconstant

end Image

/-! ## Values -/

/-- Loads constants, and `unknown` where the image holds no literal. -/
def Interpretation.guessing (image : Image) (unknown : Word) : Interpretation Word Unit where
  write insn _ _ :=
    if insn.mnemonic = "movi" then .ofInt insn.immediate
    else (image.fetch insn.literalAddress).toOption.getD unknown
  store _ _ _ := ()
  choose _ _ _ _ := none

theorem Interpretation.write_guessing_of_literal (image : Image) (unknown : Word)
    {insn : Instruction} (h : insn.mnemonic = "l32r") (memory : Unit) (values : List Word) :
    (guessing image unknown).write insn memory values =
      (image.fetch insn.literalAddress).toOption.getD unknown := by
  refine if_neg ?_
  rw [h]
  decide

theorem Interpretation.loadsConstants_guessing (image : Image) (unknown : Word) :
    (guessing image unknown).LoadsConstants image where
  immediate _ _ _ h := if_pos h
  literal _ _ _ _ h hfetch := by
    rw [write_guessing_of_literal image unknown h, hfetch]
    rfl

variable {image : Image} {symbols : SymbolTable} {before : List Instruction} {register : Operand}
  {load : Instruction} {constant : Word}

theorem holds_of_findsLiteral (hload : load.bare = image.decode symbols load.address)
    (hlast : lastDefinition? before register = some load)
    (hconstant : load.shownConstant? = some constant) (hfinds : load.FindsLiteral image) :
    Holds image before register constant := by
  intro Memory I m hI
  obtain ⟨memory, values, hwrite⟩ := exists_write I m hlast
  rw [hwrite]
  rcases Image.eq_of_shownConstant? hload hconstant with ⟨hmovi, rfl⟩ | ⟨hliteral, rfl⟩
  · exact hI.immediate load memory values hmovi
  · obtain ⟨word, hword⟩ := hfinds hliteral
    rw [hI.literal load memory values word hliteral hword, hword]
    rfl

theorem not_findsLiteral_iff : ¬ load.FindsLiteral image ↔
    load.mnemonic = "l32r" ∧ (image.fetch load.literalAddress).toOption = none := by
  rw [Instruction.FindsLiteral, Classical.not_imp]
  refine and_congr_right fun _ => ?_
  cases image.fetch load.literalAddress with
  | error _ => simp [Except.toOption]
  | ok word => simp [Except.toOption]

/-- A literal that the image does not hold may be anything. -/
theorem not_holds_of_not_findsLiteral (hlast : lastDefinition? before register = some load)
    (hfinds : ¬ load.FindsLiteral image) (constant : Word) :
    ¬ Holds image before register constant := by
  intro hholds
  obtain ⟨hliteral, hnone⟩ := not_findsLiteral_iff.1 hfinds
  have hvalue := hholds Unit (.guessing image (constant + 1)) ⟨fun _ => 0, ()⟩
    (Interpretation.loadsConstants_guessing image _)
  obtain ⟨memory, values, hwrite⟩ :=
    exists_write (.guessing image (constant + 1)) ⟨fun _ => 0, ()⟩ hlast
  rw [hwrite, Interpretation.write_guessing_of_literal image _ hliteral, hnone,
    Option.getD_none] at hvalue
  exact absurd hvalue (by simp)

namespace Block

variable {b : Block} {index : Nat} {insn : Instruction} {known : Constants}

/--
A constant that is known of a register in a disassembled block comes from the last definition before
that place. The register holds it there unless that is a load of a literal which the image does not
hold, and the constant is the address of the literal then.
-/
theorem known_holds_iff (hdisassembled : b.Disassembled image symbols)
    (hplace : b.withConstants[index]? = some (insn, known))
    (hknown : known.get? register = some constant) :
    ∃ load, lastDefinition? (b.instructions.take index) register = some load ∧
      (Holds image (b.instructions.take index) register constant ↔ load.FindsLiteral image) ∧
      (¬ load.FindsLiteral image → constant = load.literalAddress) := by
  rw [getElem?_withConstants] at hplace
  obtain ⟨_, -, heq⟩ := Option.map_eq_some_iff.1 hplace
  cases heq
  rw [Constants.get?_behind, knownConstant?, Option.bind_eq_some_iff] at hknown
  obtain ⟨load, hlast, hconstant⟩ := hknown
  have hload : load.bare = image.decode symbols load.address := by
    have hmem := List.mem_of_getLast? hlast
    exact hdisassembled load (List.mem_of_mem_take (List.mem_filter.1 hmem).1)
  refine ⟨load, hlast, ⟨fun hholds => ?_, holds_of_findsLiteral hload hlast hconstant⟩, ?_⟩
  · by_contra hfinds
    exact not_holds_of_not_findsLiteral hlast hfinds constant hholds
  · intro hfinds
    obtain ⟨hliteral, hnone⟩ := not_findsLiteral_iff.1 hfinds
    rcases Image.eq_of_shownConstant? hload hconstant with ⟨hmovi, -⟩ | ⟨-, heq⟩
    · exact absurd (hmovi.symm.trans hliteral) (by decide)
    · rw [heq, hnone, Option.getD_none]

/-- An image whose first load finds its literal and whose second one looks behind the end. -/
def twoLoads : Image where
  base := 0x400d0000
  bytes := #[0x31, 0x03, 0x00, 0x00, 0x41, 0xfe, 0x3f, 0x00, 0x22, 0x63, 0x00, 0x00,
    0x0d, 0x00, 0x00, 0x00, 0x00, 0x40, 0xf4, 0x3f]

/-- The block of that image, of two loads, a store and a return. -/
def twoLoadsBlock : Block where
  id := 0
  start := 0x400d0000
  last := 0x400d000c
  instructions := twoLoads.listing .empty 0x400d0000 0x400d0010

theorem twoLoadsBlock_disassembled : twoLoadsBlock.Disassembled twoLoads .empty := by
  unfold Disassembled
  decide +kernel

/-- The register of the first load holds the literal that is known of it. -/
theorem twoLoads_known : twoLoadsBlock.Disassembled twoLoads .empty ∧
    ∃ insn known, twoLoadsBlock.withConstants[2]? = some (insn, known) ∧
      known.get? "a3" = some 0x3ff44000 ∧
      Holds twoLoads (twoLoadsBlock.instructions.take 2) "a3" 0x3ff44000 := by
  obtain ⟨insn, known, hplace, hknown⟩ : ∃ insn known,
      twoLoadsBlock.withConstants[2]? = some (insn, known) ∧
        known.get? "a3" = some 0x3ff44000 :=
    ⟨_, _, rfl, by decide +kernel⟩
  obtain ⟨load, hlast, hholds, -⟩ := known_holds_iff twoLoadsBlock_disassembled hplace hknown
  have hfetch : ∀ load ∈ lastDefinition? (twoLoadsBlock.instructions.take 2) "a3",
      (twoLoads.fetch load.literalAddress).toOption ≠ none := by decide +kernel
  have hfinds : load.FindsLiteral twoLoads := by
    by_contra h
    exact hfetch load hlast (not_findsLiteral_iff.1 h).2
  exact ⟨twoLoadsBlock_disassembled, insn, known, hplace, hknown, hholds.2 hfinds⟩

/-- Of the second load the address of its literal is known, which is behind the image. -/
theorem twoLoads_known_address : twoLoadsBlock.Disassembled twoLoads .empty ∧
    ∃ insn known, twoLoadsBlock.withConstants[2]? = some (insn, known) ∧
      known.get? "a4" = some 0x400e0000 ∧
      twoLoads.fetch 0x400e0000 = .error (.outOfRange 0x400e0000) ∧
      ¬ Holds twoLoads (twoLoadsBlock.instructions.take 2) "a4" 0x400e0000 := by
  refine ⟨twoLoadsBlock_disassembled, _, _, rfl, by decide +kernel, by decide +kernel, ?_⟩
  have hlast : ∃ load ∈ lastDefinition? (twoLoadsBlock.instructions.take 2) "a4",
      load.mnemonic = "l32r" ∧ (twoLoads.fetch load.literalAddress).toOption = none := by
    decide +kernel
  obtain ⟨load, hlast, hload⟩ := hlast
  exact not_holds_of_not_findsLiteral hlast (not_findsLiteral_iff.2 hload) _

end Block

end FirmwareLift
