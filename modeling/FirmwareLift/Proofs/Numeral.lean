import FirmwareLift.Instruction

/-!
# Addresses in operands

An address that is written as a hexadecimal numeral is read back as the same address, and a number
that is written in decimal as the same number.
-/

namespace FirmwareLift

namespace Text

/-- The code of a digit tells its value; letters come in two cases. -/
theorem Numeral.toNat_of_digitValue? {c : Char} {digit : Nat} (h : digitValue? c = some digit) :
    digit < 10 ∧ c.toNat = digit + 48 ∨
      (10 ≤ digit ∧ digit < 36) ∧ (c.toNat = digit + 87 ∨ c.toNat = digit + 55) := by
  simp only [digitValue?, Char.le_def, UInt32.le_iff_toNat_le] at h
  split at h
  · next hc =>
    obtain ⟨hmin, hmax⟩ : 48 ≤ c.toNat ∧ c.toNat ≤ 57 := hc
    obtain rfl := Option.some.inj h
    omega
  split at h
  · next hc =>
    obtain ⟨hmin, hmax⟩ : 97 ≤ c.toNat ∧ c.toNat ≤ 122 := hc
    obtain rfl := Option.some.inj h
    omega
  split at h
  · next hc =>
    obtain ⟨hmin, hmax⟩ : 65 ≤ c.toNat ∧ c.toNat ≤ 90 := hc
    obtain rfl := Option.some.inj h
    omega
  · cases h

theorem isBlank_eq_false {c : Char} {value : Nat} (h : Numeral.digitValue? c = some value) :
    isBlank c = false := by
  have hcode := Numeral.toNat_of_digitValue? h
  simp only [isBlank, blankRanges, List.any_eq_false, List.mem_cons, List.not_mem_nil, or_false]
  rintro range hmem
  simp only [Bool.and_eq_true, decide_eq_true_eq]
  rcases hmem with rfl | rfl | rfl | rfl | rfl | rfl | rfl | rfl | rfl | rfl <;> omega

theorem dropWhile_isBlank {text : List Char} (h : ∀ c ∈ text, isBlank c = false) :
    text.dropWhile isBlank = text := by
  cases text with
  | nil => rfl
  | cons c rest => exact List.dropWhile_cons_of_neg (by simp [h c List.mem_cons_self])

theorem trim_eq_self {text : List Char} (h : ∀ c ∈ text, isBlank c = false) : trim text = text := by
  rw [trim, trimStart, trimEnd, dropWhile_isBlank h,
    dropWhile_isBlank fun c hc => h c (List.mem_reverse.1 hc), List.reverse_reverse]

end Text

namespace Text.Numeral

theorem digitValue?_digitChar : ∀ digit < 16, digitValue? (Nat.digitChar digit) = some digit := by
  decide

theorem continueDigits?_append (base high : Nat) (text rest : List Char) :
    continueDigits? base high (text ++ rest) =
      (continueDigits? base high text).bind fun value => continueDigits? base value rest := by
  induction text generalizing high with
  | nil => rfl
  | cons c text ih =>
      simp only [List.cons_append, continueDigits?]
      cases digitValue? c with
      | none => rfl
      | some digit =>
          simp only
          split
          · exact ih _
          · rfl

theorem continueDigits?_digitChar {base digit : Nat} (hbase : base ≤ 16) (h : digit < base)
    (high : Nat) : continueDigits? base high [Nat.digitChar digit] = some (high * base + digit) := by
  simp [continueDigits?, digitValue?_digitChar digit (Nat.lt_of_lt_of_le h hbase), h]

/-- The digits of a number are read back, in any base that writes its digits in lower case. -/
theorem continueDigits?_toDigits {base : Nat} (hone : 1 < base) (hbase : base ≤ 16) (n : Nat) :
    continueDigits? base 0 (Nat.toDigits base n) = some n := by
  induction n using Nat.strongRecOn with
  | ind n ih =>
      by_cases h : n < base
      · rw [Nat.toDigits_of_lt_base h, continueDigits?_digitChar hbase h, Nat.zero_mul,
          Nat.zero_add]
      · have hlt : n / base < n := Nat.div_lt_self (by omega) hone
        rw [Nat.toDigits_of_base_le hone (Nat.not_lt.1 h), continueDigits?_append, ih _ hlt,
          Option.bind_some, continueDigits?_digitChar hbase (Nat.mod_lt n (by omega)),
          Nat.div_add_mod']

theorem continueDigits?_hexDigits (n : Nat) : continueDigits? 16 0 (hexDigits n) = some n :=
  continueDigits?_toDigits (by decide) (by decide) n

theorem mem_hexDigits {n : Nat} {c : Char} (h : c ∈ hexDigits n) :
    c ∈ "0123456789abcdef".toList := by
  have hdigit : ∀ digit < 16, Nat.digitChar digit ∈ "0123456789abcdef".toList := by decide
  induction n using Nat.base_induction 16 (by decide) with
  | single m hm =>
      rw [hexDigits, Nat.toDigits_of_lt_base hm, List.mem_singleton] at h
      exact h ▸ hdigit m hm
  | digit m k hk hm ih =>
      rw [hexDigits, ← Nat.toDigits_append_toDigits (by decide) hm hk, List.mem_append,
        Nat.toDigits_of_lt_base hk, List.mem_singleton] at h
      rcases h with h | h
      · exact ih h
      · exact h ▸ hdigit k hk

theorem mem_hexDigits8 {n : Nat} {c : Char} (h : c ∈ hexDigits8 n) :
    c ∈ "0123456789abcdef".toList := by
  rw [hexDigits8, List.leftpad, List.mem_append] at h
  rcases h with h | h
  · obtain ⟨-, rfl⟩ := List.mem_replicate.1 h
    decide
  · exact mem_hexDigits h

theorem length_hexDigits8 {n : Nat} (h : n < UInt32.size) : (hexDigits8 n).length = 8 := by
  have hlength : (hexDigits n).length ≤ 8 :=
    (Nat.length_toDigits_le_iff (by decide) (by decide)).2 h
  rw [hexDigits8, List.length_leftpad, Nat.max_eq_left hlength]

theorem digitValue?_isSome {base high value : Nat} {text : List Char}
    (h : continueDigits? base high text = some value) :
    ∀ c ∈ text, ∃ digit, digitValue? c = some digit := by
  induction text generalizing high with
  | nil => simp
  | cons c text ih =>
      intro c' hc'
      rw [continueDigits?] at h
      cases hdigit : digitValue? c with
      | none => simp [hdigit] at h
      | some digit =>
          rw [hdigit] at h
          simp only at h
          split at h
          · rcases List.mem_cons.1 hc' with rfl | hc'
            · exact ⟨digit, hdigit⟩
            · exact ih h c' hc'
          · cases h

/-- A numeral without a sign is read by its digits alone. -/
theorem unsigned?_of_digits {base value : Nat} {text : List Char} (hne : text ≠ [])
    (h : continueDigits? base 0 text = some value) : unsigned? base text = some value := by
  have hdigits : digits? base text = some value := by
    cases text with
    | nil => exact absurd rfl hne
    | cons c rest => exact h
  -- A sign is no digit, so it cannot start a text whose digits were read.
  unfold unsigned?
  split
  next rest =>
    obtain ⟨digit, hdigit⟩ := digitValue?_isSome h '+' List.mem_cons_self
    exact absurd hdigit (by simp [show digitValue? '+' = none from by decide])
  next => exact hdigits

end Text.Numeral

open Text.Numeral

/-- Hexadecimal digits behind their mark are read, leading zeros or not. -/
theorem Operand.value?_of_hexDigits {text : List Char} {word : Word} (hne : text ≠ [])
    (h : continueDigits? 16 0 text = some word.toNat) :
    Operand.value? (String.ofList ('0' :: 'x' :: text)) = some word := by
  have hblank : ∀ c ∈ '0' :: 'x' :: text, Text.isBlank c = false := by
    intro c hc
    rcases List.mem_cons.1 hc with rfl | hc
    · decide
    rcases List.mem_cons.1 hc with rfl | hc
    · decide
    obtain ⟨digit, hdigit⟩ := digitValue?_isSome h c hc
    exact Text.isBlank_eq_false hdigit
  simp only [value?, String.toList_ofList, Text.trim_eq_self hblank, word?, below?,
    unsigned?_of_digits hne h]
  rw [Option.filter_some, if_pos (by simpa using word.toNat_lt), Option.map_some,
    UInt32.ofNat_toNat]

theorem Operand.value?_hex (address : Address) : Operand.value? (hex address) = some address :=
  Operand.value?_of_hexDigits Nat.toDigits_ne_nil (continueDigits?_hexDigits address.toNat)

theorem Operand.value?_hex8 (word : Word) : Operand.value? (hex8 word) = some word := by
  have hzeros : ∀ n, continueDigits? 16 0 (List.replicate n '0') = some 0 := by
    intro n
    induction n with
    | zero => rfl
    | succ n ih => exact ih
  refine Operand.value?_of_hexDigits ?_ ?_
  · rw [hexDigits8, List.leftpad]
    exact List.append_ne_nil_of_right_ne_nil _ Nat.toDigits_ne_nil
  · rw [hexDigits8, List.leftpad, continueDigits?_append, hzeros, Option.bind_some,
      continueDigits?_hexDigits]

/-! ## Decimal numbers -/

theorem Operand.isDigit_of_mem_decimal {n : Nat} {c : Char} (h : c ∈ Nat.toDigits 10 n) :
    c.isDigit = true :=
  Nat.isDigit_of_mem_toDigits (by decide) (by decide) h

theorem Operand.isBlank_of_mem_decimal {n : Nat} {c : Char} (h : c ∈ Nat.toDigits 10 n) :
    Text.isBlank c = false := by
  obtain ⟨digit, hdigit⟩ :=
    digitValue?_isSome (continueDigits?_toDigits (by decide) (by decide) n) c h
  exact Text.isBlank_eq_false hdigit

theorem Operand.word?_decimal {n : Nat} (h : n < UInt32.size) :
    word? 10 (Nat.toDigits 10 n) = some (.ofNat n) := by
  have hdigits := continueDigits?_toDigits (by decide : 1 < 10) (by decide) n
  rw [word?, below?, unsigned?_of_digits Nat.toDigits_ne_nil hdigits, Option.filter_some,
    if_pos (decide_eq_true h), Option.map_some]

theorem Operand.value?_natural {n : Nat} (h : n < UInt32.size) :
    value? (toString n) = some (.ofNat n) := by
  have htrim : Text.trim (toString n).toList = Nat.toDigits 10 n := by
    rw [Nat.toString_eq_ofList_toDigits, String.toList_ofList]
    exact Text.trim_eq_self fun c hc => isBlank_of_mem_decimal hc
  -- A decimal number has neither the mark of another base nor a sign.
  have hmark : ∀ mark : Char, mark.isDigit = false → mark ∉ Nat.toDigits 10 n := by
    intro mark hmark hmem
    rw [isDigit_of_mem_decimal hmem] at hmark
    cases hmark
  rw [value?, htrim]
  split
  · next heq => exact absurd (heq ▸ by simp) (hmark 'x' (by decide))
  · next heq => exact absurd (heq ▸ by simp) (hmark 'X' (by decide))
  · next heq => exact absurd (heq ▸ by simp) (hmark '-' (by decide))
  · exact word?_decimal h

theorem Operand.value?_negative {n : Nat} (h : n < UInt32.size) :
    value? ("-" ++ toString n) = some (0 - .ofNat n) := by
  have htext : ("-" ++ toString n).toList = '-' :: Nat.toDigits 10 n := by
    simp
  have htrim : Text.trim ("-" ++ toString n).toList = '-' :: Nat.toDigits 10 n := by
    rw [htext]
    exact Text.trim_eq_self
      (List.forall_mem_cons.2 ⟨by decide, fun c hc => isBlank_of_mem_decimal hc⟩)
  have hvalue : value? ("-" ++ toString n) = (word? 10 (Nat.toDigits 10 n)).map (0 - ·) := by
    unfold value?
    split
    · next heq => cases htrim.symm.trans heq
    · next heq => cases htrim.symm.trans heq
    · next heq =>
      cases htrim.symm.trans heq
      rfl
    · next hsign => exact absurd htrim (hsign _)
  rw [hvalue, word?_decimal h, Option.map_some]

theorem ofInt_natCast (n : Nat) : UInt32.ofInt n = .ofNat n := by
  rw [← UInt32.toNat_inj, UInt32.ofInt]
  simp only [UInt32.toNat_ofNat']
  omega

/-- A number with a sign is read as it counts modulo 2^32. -/
theorem Operand.value?_integer {i : Int} (h : i.natAbs < UInt32.size) :
    value? (toString i) = some (.ofInt i) := by
  cases i with
  | ofNat n => exact (value?_natural h).trans (congrArg some (ofInt_natCast n).symm)
  | negSucc n =>
      rw [Int.negSucc_eq, UInt32.ofInt_neg, ← UInt32.zero_sub, ← Int.natCast_succ, ofInt_natCast]
      exact value?_negative h

end FirmwareLift
