import FirmwareLift.Proofs.Numeral
import Mathlib.Data.List.TakeWhile

/-!
# Operand text

Which characters registers and numbers consist of, and how the sign of a number is read.
-/

namespace FirmwareLift

open Text.Numeral

namespace Text

variable {text : List Char} {c : Char}

theorem mem_dropWhile_isBlank (h : c ∈ text) (hc : isBlank c = false) :
    c ∈ text.dropWhile isBlank := by
  rw [← List.takeWhile_append_dropWhile (p := isBlank) (l := text), List.mem_append] at h
  rcases h with h | h
  · simp [List.mem_takeWhile_imp h] at hc
  · exact h

theorem mem_trim (h : c ∈ text) (hc : isBlank c = false) : c ∈ trim text :=
  List.mem_reverse.2 <| mem_dropWhile_isBlank
    (List.mem_reverse.2 (mem_dropWhile_isBlank h hc)) hc

theorem trimEnd_cons (hc : isBlank c = false) : trimEnd (c :: text) = c :: trimEnd text := by
  rw [trimEnd, trimEnd, List.reverse_cons, List.dropWhile_append]
  split
  · next hall => simp [hc, List.isEmpty_iff.1 hall]
  · simp

theorem trim_cons (hc : isBlank c = false) : trim (c :: text) = c :: trimEnd text := by
  rw [trim, trimStart, List.dropWhile_cons_of_neg (by simp [hc]), trimEnd_cons hc]

theorem trimEnd_prefix (text : List Char) : trimEnd text <+: text := by
  rw [trimEnd, ← List.reverse_suffix, List.reverse_reverse]
  exact List.dropWhile_suffix isBlank

end Text

namespace Operand

variable {operand : Operand} {value : Word} {base : Nat} {text : List Char} {c : Char}

/-- A character of a number apart from the blanks around it. -/
def isNumeric (c : Char) : Bool :=
  (digitValue? c).isSome || c = '+' || c = '-'

/-! ## Numerals -/

theorem isNumeric_of_mem_of_word? (h : word? base text = some value) :
    ∀ c ∈ text, isNumeric c = true := by
  obtain ⟨n, hn, -⟩ := Option.map_eq_some_iff.1 h
  have hdigits : ∀ text, digits? base text = some n → ∀ c ∈ text, isNumeric c = true := by
    intro text htext c hc
    cases text with
    | nil => cases htext
    | cons first rest =>
        obtain ⟨digit, hdigit⟩ := digitValue?_isSome htext c hc
        simp [isNumeric, hdigit]
  have hunsigned := (Option.filter_eq_some_iff.1 hn).1
  unfold unsigned? at hunsigned
  split at hunsigned
  · exact List.forall_mem_cons.2 ⟨rfl, hdigits _ hunsigned⟩
  · exact hdigits _ hunsigned

/-- A numeral starts with a digit of its base or with a plus sign, and a digit follows these. -/
theorem word?_eq_none (hc : c ≠ '+')
    (h : ∀ digit, digitValue? c = some digit → base ≤ digit) : word? base (c :: text) = none := by
  have hunsigned : unsigned? base (c :: text) = none := by
    unfold unsigned?
    split
    · next heq => exact absurd (List.cons.inj heq).1 hc
    · rw [digits?, continueDigits?]
      · cases hdigit : digitValue? c with
        | none => rfl
        | some digit => exact if_neg (Nat.not_lt.2 (h digit hdigit))
      · simp
  rw [word?, below?, hunsigned]
  rfl

/-- What stands behind the mark of a base or of a sign is a numeral. -/
theorem exists_word?_of_value? (h : operand.value? = some value) :
    ∃ mark ∈ [['0', 'x'], ['0', 'X'], ['-'], []], ∃ base digits word,
      Text.trim operand.toList = mark ++ digits ∧ word? base digits = some word := by
  unfold value? at h
  split at h
  · next digits heq => exact ⟨['0', 'x'], by simp, 16, digits, value, heq, h⟩
  · next digits heq => exact ⟨['0', 'X'], by simp, 16, digits, value, heq, h⟩
  · next digits heq =>
    obtain ⟨word, hword, -⟩ := Option.map_eq_some_iff.1 h
    exact ⟨['-'], by simp, 10, digits, word, heq, hword⟩
  · exact ⟨[], by simp, 10, _, value, rfl, h⟩

theorem not_mem_of_value? (h : operand.value? = some value) (hblank : Text.isBlank c = false)
    (hnumeric : isNumeric c = false) : c ∉ operand.toList := by
  intro hc
  obtain ⟨mark, hmark, base, digits, word, htrim, hword⟩ := exists_word?_of_value? h
  have hmarks : ∀ mark ∈ [['0', 'x'], ['0', 'X'], ['-'], []], ∀ c ∈ mark, isNumeric c = true := by
    simp only [List.forall_mem_cons, List.not_mem_nil, false_implies, implies_true]
    decide
  have hmem := Text.mem_trim hc hblank
  rw [htrim, List.mem_append] at hmem
  rcases hmem with hmem | hmem
  · simp [hmarks mark hmark c hmem] at hnumeric
  · simp [isNumeric_of_mem_of_word? hword c hmem] at hnumeric

theorem isBlank_of_isNumeric (h : isNumeric c = true) : Text.isBlank c = false := by
  simp only [isNumeric, Bool.or_eq_true, decide_eq_true_eq] at h
  rcases h with (h | rfl) | rfl
  · obtain ⟨digit, hdigit⟩ := Option.isSome_iff_exists.1 h
    exact Text.isBlank_eq_false hdigit
  · decide
  · decide

/-- A minus sign in front of a number negates what stands behind it. -/
theorem value?_of_minus (h : operand.value? = some value) (htext : operand.toList = '-' :: text) :
    ∃ magnitude, value? (String.ofList text) = some magnitude ∧ value = 0 - magnitude := by
  have hsplit : value? operand = (word? 10 (Text.trimEnd text)).map (0 - ·) := by
    rw [value?, htext, Text.trim_cons (by decide)]
    rfl
  obtain ⟨magnitude, hword, rfl⟩ := Option.map_eq_some_iff.1 (hsplit.symm.trans h)
  refine ⟨magnitude, ?_, rfl⟩
  -- No blank follows the sign, so that trimming the rest does not change its front.
  have htrim : Text.trim text = Text.trimEnd text := by
    obtain ⟨behind, hbehind⟩ := Text.trimEnd_prefix text
    cases hend : Text.trimEnd text with
    | nil =>
        rw [hend] at hword
        cases hword
    | cons c rest =>
        rw [hend] at hword hbehind
        have hc := isBlank_of_isNumeric (isNumeric_of_mem_of_word? hword c List.mem_cons_self)
        rw [← hend, Text.trim, Text.trimStart, ← hbehind, List.cons_append,
          List.dropWhile_cons_of_neg (by simp [hc])]
  rw [value?, String.toList_ofList, htrim]
  -- A decimal numeral has neither a mark of its base nor a second sign.
  split
  · next heq =>
    rw [heq] at hword
    cases hword
  · next heq =>
    rw [heq] at hword
    cases hword
  · next heq =>
    rw [heq] at hword
    cases hword
  · exact hword

/-! ## Registers -/

theorem isRegister_iff :
    operand.isRegister = true ↔
      ∃ digits, operand.toList = 'a' :: digits ∧ digits ≠ [] ∧ ∀ c ∈ digits, c.isDigit = true := by
  unfold isRegister
  split
  · next digits heq => simp [heq]
  · next hne =>
    simp only [Bool.false_eq_true, false_iff, not_exists]
    rintro digits ⟨heq, -⟩
    exact hne digits heq

theorem value?_of_letter (h : operand.toList = 'a' :: text) : operand.value? = none := by
  rw [value?, h, Text.trim_cons (by decide)]
  refine word?_eq_none (by decide) fun digit hdigit => ?_
  have hten : digitValue? 'a' = some 10 := by decide
  exact (Option.some.inj (hten.symm.trans hdigit)).le

theorem value?_of_isRegister (h : operand.isRegister = true) : operand.value? = none := by
  obtain ⟨digits, htext, -, -⟩ := isRegister_iff.1 h
  exact value?_of_letter htext

theorem isRegister_hex (address : Address) : isRegister (hex address) = false := by
  cases h : isRegister (hex address) with
  | false => rfl
  | true =>
      have hvalue := value?_of_isRegister h
      rw [value?_hex] at hvalue
      cases hvalue

theorem not_mem_of_isRegister (h : operand.isRegister = true) (hc : c ≠ 'a')
    (hdigit : c.isDigit = false) : c ∉ operand.toList := by
  obtain ⟨digits, htext, -, hdigits⟩ := isRegister_iff.1 h
  intro hmem
  rw [htext] at hmem
  rcases List.mem_cons.1 hmem with heq | hmem
  · exact hc heq
  · rw [hdigits c hmem] at hdigit
    cases hdigit

end Operand

end FirmwareLift
