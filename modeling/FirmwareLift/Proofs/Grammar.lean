import FirmwareLift.Proofs.Numeral
import Mathlib.Data.List.Forall2
import Mathlib.Data.List.Induction
import Mathlib.Data.Nat.Digits.Defs
import Mathlib.Tactic.Ring

/-!
# Grammar of numerals

Which texts are read as numbers, and as which: one or more digits of the base, behind at most one
plus sign, with the highest digit first.
-/

namespace FirmwareLift.Text.Numeral

variable {base bound value : Nat} {text : List Char}

/-- One or more digits and the number that they stand for; the last digit is the lowest. -/
inductive IsDigits (base : Nat) : List Char → Nat → Prop where
  | single {c : Char} {digit : Nat} :
      digitValue? c = some digit → digit < base → IsDigits base [c] digit
  | snoc {text : List Char} {value : Nat} {c : Char} {digit : Nat} :
      IsDigits base text value → digitValue? c = some digit → digit < base →
        IsDigits base (text ++ [c]) (value * base + digit)

/-- Digits, with or without a plus sign in front of them. -/
inductive IsUnsigned (base : Nat) : List Char → Nat → Prop where
  | plain {text : List Char} {value : Nat} : IsDigits base text value → IsUnsigned base text value
  | plus {text : List Char} {value : Nat} :
      IsDigits base text value → IsUnsigned base ('+' :: text) value

theorem continueDigits?_singleton {c : Char} {high : Nat} :
    continueDigits? base high [c] = some value ↔
      ∃ digit, digitValue? c = some digit ∧ digit < base ∧ value = high * base + digit := by
  rw [continueDigits?]
  cases digitValue? c with
  | none => simp
  | some digit =>
      by_cases h : digit < base
      · simp [continueDigits?, h, eq_comm (a := value)]
      · simp [h]

theorem digits?_of_ne_nil (h : text ≠ []) : digits? base text = continueDigits? base 0 text := by
  cases text with
  | nil => exact absurd rfl h
  | cons c rest => rfl

theorem digits?_eq_some_iff : digits? base text = some value ↔ IsDigits base text value := by
  constructor
  · intro h
    induction text using List.reverseRecOn generalizing value with
    | nil => cases h
    | append_singleton text c ih =>
        rw [digits?_of_ne_nil (by simp), continueDigits?_append, Option.bind_eq_some_iff] at h
        obtain ⟨high, hhigh, hlast⟩ := h
        obtain ⟨digit, hdigit, hlt, rfl⟩ := continueDigits?_singleton.1 hlast
        by_cases hne : text = []
        · subst hne
          obtain rfl : 0 = high := Option.some.inj hhigh
          rw [Nat.zero_mul, Nat.zero_add]
          exact .single hdigit hlt
        · exact .snoc (ih (by rw [digits?_of_ne_nil hne, hhigh])) hdigit hlt
  · intro h
    induction h with
    | single hdigit hlt =>
        rw [digits?_of_ne_nil (by simp)]
        exact continueDigits?_singleton.2 ⟨_, hdigit, hlt, by simp⟩
    | @snoc text value c digit htext hdigit hlt ih =>
        have hne : text ≠ [] := by
          rintro rfl
          cases ih
        rw [digits?_of_ne_nil hne] at ih
        rw [digits?_of_ne_nil (by simp), continueDigits?_append, ih, Option.bind_some]
        exact continueDigits?_singleton.2 ⟨_, hdigit, hlt, rfl⟩

theorem unsigned?_eq_some_iff : unsigned? base text = some value ↔ IsUnsigned base text value := by
  unfold unsigned?
  split
  · next rest =>
    rw [digits?_eq_some_iff]
    refine ⟨.plus, fun h => ?_⟩
    cases h with
    | plus h => exact h
    | plain h =>
        -- A sign is no digit.
        obtain ⟨digit, hdigit⟩ := digitValue?_isSome (digits?_eq_some_iff.2 h) '+' List.mem_cons_self
        exact absurd hdigit (by simp [show digitValue? '+' = none from by decide])
  · next hne =>
    rw [digits?_eq_some_iff]
    refine ⟨.plain, fun h => ?_⟩
    cases h with
    | plain h => exact h
    | plus h => exact absurd rfl (hne _)

theorem below?_eq_some_iff :
    below? bound base text = some value ↔ IsUnsigned base text value ∧ value < bound := by
  rw [below?, Option.filter_eq_some_iff, unsigned?_eq_some_iff, decide_eq_true_eq]

/-! ## Positional values -/

/-- A digit of a base up to sixteen; a letter may be of either case. -/
def IsDigit (base : Nat) (c : Char) (digit : Nat) : Prop :=
  digit < base ∧ (c = Nat.digitChar digit ∨ c = (Nat.digitChar digit).toUpper)

/-- One or more digits, the highest first, and the number that they stand for. -/
def Spells (base : Nat) (text : List Char) (value : Nat) : Prop :=
  text ≠ [] ∧ ∃ digits, List.Forall₂ (IsDigit base) text digits ∧
    value = Nat.ofDigits base digits.reverse

variable {c : Char} {digit : Nat}

theorem digitValue?_eq_some_iff (h : digit < 16) :
    digitValue? c = some digit ↔ c = Nat.digitChar digit ∨ c = (Nat.digitChar digit).toUpper := by
  have hlow : ∀ digit < 10, (Nat.digitChar digit).toNat = digit + 48 := by decide
  have hletter : ∀ digit < 16, 10 ≤ digit → (Nat.digitChar digit).toNat = digit + 87 ∧
      (Nat.digitChar digit).toUpper.toNat = digit + 55 := by decide
  have hupper : ∀ digit < 16, digitValue? (Nat.digitChar digit).toUpper = some digit := by decide
  constructor
  · intro hvalue
    rcases toNat_of_digitValue? hvalue with ⟨hlt, hcode⟩ | ⟨⟨hle, -⟩, hcode | hcode⟩
    · exact .inl (Char.toNat_inj.1 (hcode.trans (hlow digit hlt).symm))
    · exact .inl (Char.toNat_inj.1 (hcode.trans (hletter digit h hle).1.symm))
    · exact .inr (Char.toNat_inj.1 (hcode.trans (hletter digit h hle).2.symm))
  · rintro (rfl | rfl)
    · exact digitValue?_digitChar digit h
    · exact hupper digit h

theorem isDigit_iff (hbase : base ≤ 16) :
    IsDigit base c digit ↔ digitValue? c = some digit ∧ digit < base := by
  rw [IsDigit, and_comm]
  exact and_congr_left fun h => (digitValue?_eq_some_iff (Nat.lt_of_lt_of_le h hbase)).symm

theorem continueDigits?_cons (hbase : base ≤ 16) {high : Nat} :
    continueDigits? base high (c :: text) = some value ↔
      ∃ digit, IsDigit base c digit ∧
        continueDigits? base (high * base + digit) text = some value := by
  simp only [continueDigits?, isDigit_iff hbase]
  cases digitValue? c with
  | none => simp
  | some digit =>
      by_cases h : digit < base
      · simp [h]
      · simp [h]

/-- Reading digits continues the number in the positional system. -/
theorem continueDigits?_eq_some_iff (hbase : base ≤ 16) {high : Nat} :
    continueDigits? base high text = some value ↔
      ∃ digits, List.Forall₂ (IsDigit base) text digits ∧
        value = high * base ^ digits.length + Nat.ofDigits base digits.reverse := by
  induction text generalizing high with
  | nil => simp [continueDigits?, List.forall₂_nil_left_iff, eq_comm (a := value)]
  | cons c text ih =>
      have hvalue : ∀ (digit : Nat) (digits : List Nat),
          (high * base + digit) * base ^ digits.length + Nat.ofDigits base digits.reverse =
            high * base ^ (digit :: digits).length +
              Nat.ofDigits base (digit :: digits).reverse := by
        intro digit digits
        rw [List.reverse_cons, Nat.ofDigits_append, Nat.ofDigits_singleton, List.length_cons,
          List.length_reverse]
        ring
      rw [continueDigits?_cons hbase]
      constructor
      · rintro ⟨digit, hdigit, hrest⟩
        obtain ⟨digits, hdigits, rfl⟩ := ih.1 hrest
        exact ⟨digit :: digits, .cons hdigit hdigits, hvalue digit digits⟩
      · rintro ⟨_, hdigits, rfl⟩
        cases hdigits with
        | @cons _ digit _ digits hdigit hdigits =>
            exact ⟨digit, hdigit, ih.2 ⟨digits, hdigits, (hvalue digit digits).symm⟩⟩

theorem isDigits_iff (hbase : base ≤ 16) : IsDigits base text value ↔ Spells base text value := by
  rw [← digits?_eq_some_iff]
  by_cases hne : text = []
  · subst hne
    exact iff_of_false nofun fun h => h.1 rfl
  · rw [digits?_of_ne_nil hne, continueDigits?_eq_some_iff hbase, Spells, and_iff_right hne]
    simp only [Nat.zero_mul, Nat.zero_add]

theorem isUnsigned_iff (hbase : base ≤ 16) :
    IsUnsigned base text value ↔
      Spells base text value ∨ ∃ digits, text = '+' :: digits ∧ Spells base digits value := by
  simp only [← isDigits_iff hbase]
  constructor
  · intro h
    cases h with
    | plain h => exact .inl h
    | plus h => exact .inr ⟨_, rfl, h⟩
  · rintro (h | ⟨_, rfl, h⟩)
    · exact .plain h
    · exact .plus h

end FirmwareLift.Text.Numeral
