import FirmwareLift.Json.Basic
import FirmwareLift.Json.Parser

/-!
# Tokens of written text

What is written for strings and whole numbers is read back as one token, wherever it stands in front
of a line break, a comma or the end of the text.
-/

namespace FirmwareLift.Json.Token

open Text.Numeral

variable {c : Char} {text rest : List Char}

/-! ## Strings -/

/-- The escape of a control character without a letter of its own. -/
theorem exists_unit_escape (h : c.toNat < 0x20) :
    ∃ a b, List.leftpad 4 '0' (hexDigits c.toNat) = ['0', '0', a, b] ∧
      continueDigits? 16 0 ['0', '0', a, b] = some c.toNat := by
  have hall : ∀ n < 0x20, ∃ a b, List.leftpad 4 '0' (hexDigits n) = ['0', '0', a, b] ∧
      continueDigits? 16 0 ['0', '0', a, b] = some n := by
    intro n hn
    refine ⟨Nat.digitChar (n / 16), Nat.digitChar (n % 16), ?_⟩
    revert n
    decide
  exact hall c.toNat h

theorem scanString?_escaped {letter : Char} (h : escaped? letter = some c) (text : List Char) :
    scanString? ('\\' :: letter :: text) =
      (scanString? text).map fun (parts, behind) => (.char c :: parts, behind) := by
  have hunit : letter ≠ 'u' := by
    rintro rfl
    cases h
  rw [scanString?]
  · rw [h]
    cases scanString? text <;> rfl
  · intro a b c d rest hletter
    exact absurd hletter hunit

/-- Whatever is written for a character, it is read back as that character. -/
theorem scanString?_escapeJson (c : Char) (text : List Char) :
    scanString? (Text.escapeJson c ++ text) =
      (scanString? text).map fun (parts, behind) => (.char c :: parts, behind) := by
  unfold Text.escapeJson
  split
  case h_8 hquote hbackslash _ _ _ _ _ =>
    split
    · next hcontrol =>
      obtain ⟨a, b, hdigits, hunit⟩ := exists_unit_escape hcontrol
      have hpart : Part.ofUnit c.toNat = .char c := by
        rw [Part.ofUnit, if_neg (by omega), Char.ofNat_toNat]
      rw [hdigits]
      simp only [List.cons_append, List.nil_append, scanString?, hunit]
      cases scanString? text with
      | none => rfl
      | some read => simp [hpart]
    · next hplain =>
      rw [List.singleton_append, scanString?, if_neg hplain]
      · exact hquote
      · intro _ _ _ _ _ hc
        exact absurd hc hbackslash
      · intro _ _ hc
        exact absurd hc hbackslash
  all_goals exact scanString?_escaped rfl text

theorem scanString?_quoted (text rest : List Char) :
    scanString? (text.flatMap Text.escapeJson ++ '"' :: rest) = some (text.map .char, rest) := by
  induction text with
  | nil => rfl
  | cons c text ih =>
      rw [List.flatMap_cons, List.append_assoc, scanString?_escapeJson, ih]
      rfl

theorem joinParts?_map_char (text : List Char) : joinParts? (text.map .char) = some text := by
  induction text with
  | nil => rfl
  | cons c text ih =>
      rw [List.map_cons, joinParts?, ih]
      rfl

theorem scan?_stringText (text : String) (rest : List Char) :
    scan? (stringText (some text) ++ rest) = (scan? rest).map (string (some text) :: ·) := by
  rw [stringText, Text.quote, Option.getD_some, List.cons_append, List.cons_append,
    List.append_assoc, List.singleton_append, scan?]
  split
  · next hscan =>
    rw [scanString?_quoted] at hscan
    cases hscan
  · next parts behind hscan =>
    rw [scanString?_quoted] at hscan
    cases hscan
    rw [joinParts?_map_char, Option.map_some, String.ofList_toList]

/-! ## Whole numbers -/

/-- No number goes on with what follows it. -/
def EndsNumber (rest : List Char) : Prop :=
  ∀ c ∈ rest.head?, c = ',' ∨ c = '\n'

theorem head_toDigits {n : Nat} (h : n ≠ 0) :
    ∃ c digits, Nat.toDigits 10 n = c :: digits ∧ c ≠ '0' := by
  induction n using Nat.base_induction 10 (by decide) with
  | single m hm =>
      refine ⟨Nat.digitChar m, [], Nat.toDigits_of_lt_base hm, ?_⟩
      revert m
      decide
  | digit m k hk hm ih =>
      obtain ⟨c, digits, hdigits, hc⟩ := ih (by omega)
      refine ⟨c, digits ++ Nat.toDigits 10 k, ?_, hc⟩
      rw [← Nat.toDigits_append_toDigits (by decide) hm hk, hdigits, List.cons_append]

theorem scanDigits?_toDigits (n : Nat) (h : EndsNumber rest) :
    scanDigits? (Nat.toDigits 10 n ++ rest) = some (Nat.toDigits 10 n, rest) := by
  have hdigits : ∀ c ∈ Nat.toDigits 10 n, c.isDigit = true := fun c hc =>
    Nat.isDigit_of_mem_toDigits (by decide) (by decide) hc
  have hrest : rest.takeWhile Char.isDigit = [] ∧ rest.dropWhile Char.isDigit = rest := by
    cases rest with
    | nil => exact ⟨rfl, rfl⟩
    | cons c rest =>
        have hc : c.isDigit = false := by rcases h c rfl with rfl | rfl <;> rfl
        simp [hc]
  rw [scanDigits?, List.takeWhile_append_of_pos hdigits, List.dropWhile_append_of_pos hdigits,
    hrest.1, hrest.2, List.append_nil]
  split
  · next hnil => exact absurd hnil Nat.toDigits_ne_nil
  · rfl

theorem scanWhole?_toDigits (n : Nat) (h : EndsNumber rest) :
    scanWhole? (Nat.toDigits 10 n ++ rest) = some (Nat.toDigits 10 n, rest) := by
  by_cases hn : n = 0
  · subst hn
    rfl
  · obtain ⟨c, digits, hdigits, hc⟩ := head_toDigits hn
    have hscan := scanDigits?_toDigits n h
    rw [hdigits, List.cons_append] at hscan ⊢
    rw [scanWhole?]
    · exact hscan
    · rintro behind hcons
      exact hc (List.cons.inj hcons).1

theorem scanFraction?_of_endsNumber (h : EndsNumber rest) :
    scanFraction? rest = some ([], rest) := by
  unfold scanFraction?
  split
  · next behind =>
    rcases h '.' rfl with hc | hc <;> cases hc
  · rfl

theorem scanExponent?_of_endsNumber (h : EndsNumber rest) :
    scanExponent? rest = some ([], rest) := by
  cases rest with
  | nil => rfl
  | cons c rest => rcases h c rfl with rfl | rfl <;> rfl

theorem exists_isDigit_cons (n : Nat) :
    ∃ c digits, Nat.toDigits 10 n = c :: digits ∧ c.isDigit = true := by
  cases hdigits : Nat.toDigits 10 n with
  | nil => exact absurd hdigits Nat.toDigits_ne_nil
  | cons c digits =>
      have hmem : c ∈ Nat.toDigits 10 n := by simp [hdigits]
      exact ⟨c, digits, rfl, Nat.isDigit_of_mem_toDigits (by decide) (by decide) hmem⟩

theorem scanNumber?_toDigits (n : Nat) (h : EndsNumber rest) :
    scanNumber? (Nat.toDigits 10 n ++ rest) = some (.natural n, rest) := by
  have hunsigned : scanUnsigned? (Nat.toDigits 10 n ++ rest) =
      some (Nat.toDigits 10 n, [], rest) := by
    simp [scanUnsigned?, scanWhole?_toDigits n h, scanFraction?_of_endsNumber h,
      scanExponent?_of_endsNumber h]
  unfold scanNumber?
  split
  · next text heq =>
    obtain ⟨c, digits, hdigits, hc⟩ := exists_isDigit_cons n
    rw [hdigits] at heq
    cases heq
    cases hc
  · rw [hunsigned]
    simp

/-- No other token starts with a digit. -/
theorem scan?_of_isDigit {token : Token} (hc : c.isDigit = true)
    (h : scanNumber? (c :: text) = some (token, rest)) :
    scan? (c :: text) = (scan? rest).map (token :: ·) := by
  rw [scan?]
  · split
    · next hscan =>
      rw [h] at hscan
      cases hscan
    · next hscan =>
      rw [h] at hscan
      cases hscan
      rfl
  case x_1 => exact List.cons_ne_nil _ _
  all_goals
    intro behind hcons
    obtain ⟨rfl, -⟩ := List.cons.inj hcons
    cases hc

theorem scan?_toDigits (n : Nat) (h : EndsNumber rest) :
    scan? (Nat.toDigits 10 n ++ rest) = (scan? rest).map (natural n :: ·) := by
  have hnumber := scanNumber?_toDigits n h
  obtain ⟨c, digits, hdigits, hc⟩ := exists_isDigit_cons n
  rw [hdigits, List.cons_append] at hnumber ⊢
  exact scan?_of_isDigit hc hnumber

/-! ## Blanks -/

theorem scan?_newline (depth : Nat) (text : List Char) :
    scan? (newline depth ++ text) = scan? text := by
  have hblanks : ∀ count, scan? (List.replicate count ' ' ++ text) = scan? text := by
    intro count
    induction count with
    | zero => rfl
    | succ count ih => rw [List.replicate_succ, List.cons_append, scan?, ih]
  rw [newline, List.cons_append, scan?, hblanks]

end FirmwareLift.Json.Token
