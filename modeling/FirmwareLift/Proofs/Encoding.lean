import FirmwareLift.Encoding
import FirmwareLift.Instruction

/-!
# Formats of instruction words

The mnemonic of a word tells its format, and with it which bits hold the operands. So it tells where
a direct transfer keeps the offset of its target.
-/

namespace FirmwareLift

theorem Kind.mem_of_ofMnemonic_eq_branch {mnemonic : String}
    (h : Kind.ofMnemonic mnemonic = .branch) :
    mnemonic ∈ ["beq", "bne", "blt", "bge", "bltu", "bgeu", "beqz", "bnez"] := by
  rw [Kind.ofMnemonic] at h
  repeat' split at h
  · assumption
  all_goals cases h

theorem natAbs_signExtend_le {width value : Nat} (h : value < 1 <<< width) :
    (signExtend width value).natAbs ≤ 1 <<< width := by
  rw [signExtend]
  split <;> omega

theorem Word.field_lt (word : Word) (low width : Nat) : word.field low width < 1 <<< width :=
  Nat.mod_lt _ (Nat.one_shiftLeft width ▸ Nat.two_pow_pos width)

namespace Encoding

/-- The format of the words that are decoded with a mnemonic. -/
def format : String → Nat
  | "add" | "sub" | "and" | "or" | "xor" | "mull" | "sll" | "srl" | "neg" | "mov" => 0x0
  | "l32r" => 0x1
  | "l8ui" | "l32i" | "s8i" | "s32i" | "slli" | "srli" | "movi" | "addi" => 0x2
  | "call0" | "call4" | "call8" | "call12" => 0x5
  | "j" | "entry" => 0x6
  | "beq" | "bne" | "blt" | "bge" | "bltu" | "bgeu" | "beqz" | "bnez" => 0x7
  | "add.s" | "sub.s" | "mul.s" | "div.s" => 0x8
  | _ => 0xd

variable {word : Word} {form : Form} (h : form? word = some form)

include h

theorem ne_zero_of_form? : word ≠ 0 := by
  rintro rfl
  cases h

theorem field_of_form? : word.field 0 4 = format form.mnemonic := by
  simp only [form?, if_neg (ne_zero_of_form? h)] at h
  split at h
  case h_1 hformat => unfold arithmetic? at h; split at h <;> cases h <;> exact hformat
  case h_2 hformat => cases h; exact hformat
  case h_3 hformat => unfold immediate? at h; split at h <;> cases h <;> exact hformat
  case h_4 hformat => unfold call? at h; split at h <;> cases h <;> exact hformat
  case h_5 hformat => unfold jumpOrEntry? at h; split at h <;> cases h <;> exact hformat
  case h_6 hformat => unfold branch? at h; split at h <;> cases h <;> exact hformat
  case h_7 hformat => unfold floatArithmetic? at h; split at h <;> cases h <;> exact hformat
  case h_8 hformat => unfold control? at h; split at h <;> cases h <;> exact hformat
  case h_9 => cases h

/-- The last operand of a branch is the target that the short offset field tells. -/
theorem getLast?_operands_of_branch (hkind : Kind.ofMnemonic form.mnemonic = .branch) :
    form.operands.getLast? = some (.target (signExtend 8 (word.field 16 8))) := by
  have hbranches : ∀ mnemonic ∈ ["beq", "bne", "blt", "bge", "bltu", "bgeu", "beqz", "bnez"],
      format mnemonic = 7 := by decide
  have hformat := field_of_form? h
  rw [hbranches _ (Kind.mem_of_ofMnemonic_eq_branch hkind)] at hformat
  simp only [form?, if_neg (ne_zero_of_form? h), hformat] at h
  unfold branch? at h
  split at h <;> cases h <;> rfl

theorem operands_of_jump (hjump : form.mnemonic = "j") :
    form.operands = [.target (signExtend 24 (word.field 8 24))] := by
  have hformat : word.field 0 4 = format "j" := by rw [field_of_form? h, hjump]
  simp only [form?, if_neg (ne_zero_of_form? h), hformat, format] at h
  unfold jumpOrEntry? at h
  split at h <;> cases h
  · rfl
  · simp at hjump

theorem operands_of_literal (hliteral : form.mnemonic = "l32r") :
    form.operands = [.register (word.field 4 4), .literal (signExtend 16 (word.field 8 16))] := by
  have hformat : word.field 0 4 = format "l32r" := by rw [field_of_form? h, hliteral]
  simp only [form?, if_neg (ne_zero_of_form? h), hformat, format] at h
  cases h
  rfl

theorem operands_of_constant (hconstant : form.mnemonic = "movi") :
    form.operands =
      [.register (word.field 4 4),
        .signed (signExtend 12 (word.field 8 4 * 256 + word.field 16 8))] := by
  have hformat : word.field 0 4 = format "movi" := by rw [field_of_form? h, hconstant]
  simp only [form?, if_neg (ne_zero_of_form? h), hformat, format] at h
  unfold immediate? at h
  split at h
  case h_7 =>
    cases h
    rfl
  case h_9 => cases h
  all_goals
    cases h
    simp at hconstant

/-- Only `l32r` has a literal, and signed operands are immediates of eight or twelve bits. -/
theorem operands_of_form? : ∀ operand ∈ form.operands,
    (∀ offset, operand = .literal offset → form.mnemonic = "l32r") ∧
      ∀ i, operand = .signed i → i.natAbs < UInt32.size := by
  simp only [form?, if_neg (ne_zero_of_form? h)] at h
  split at h
  case h_1 => unfold arithmetic? at h; split at h <;> cases h <;> simp
  case h_2 => cases h; simp
  case h_3 =>
    have hbound : ∀ width value, value < 1 <<< width → 1 <<< width < UInt32.size →
        (signExtend width value).natAbs < UInt32.size :=
      fun _ _ hvalue hwidth => Nat.lt_of_le_of_lt (natAbs_signExtend_le hvalue) hwidth
    have hlow := word.field_lt 16 8
    have hhigh := word.field_lt 8 4
    unfold immediate? at h
    split at h <;> cases h <;> simp
    · exact hbound 12 _ (by omega) (by decide)
    · exact hbound 8 _ hlow (by decide)
  case h_4 => unfold call? at h; split at h <;> cases h <;> simp
  case h_5 => unfold jumpOrEntry? at h; split at h <;> cases h <;> simp
  case h_6 => unfold branch? at h; split at h <;> cases h <;> simp
  case h_7 => unfold floatArithmetic? at h; split at h <;> cases h <;> simp
  case h_8 => unfold control? at h; split at h <;> cases h <;> simp
  case h_9 => cases h

theorem mnemonic_of_literal {offset : Int} (hliteral : .literal offset ∈ form.operands) :
    form.mnemonic = "l32r" :=
  (operands_of_form? h _ hliteral).1 offset rfl

theorem natAbs_lt_of_signed {i : Int} (hsigned : .signed i ∈ form.operands) :
    i.natAbs < UInt32.size :=
  (operands_of_form? h _ hsigned).2 i rfl

end Encoding

end FirmwareLift
