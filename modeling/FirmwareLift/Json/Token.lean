import FirmwareLift.Text

/-!
# JSON tokens

The tokens of a JSON text. Blanks between tokens are the four that the format allows.
-/

namespace FirmwareLift.Json

inductive Token where
  | openArray
  | closeArray
  | openObject
  | closeObject
  | comma
  | colon
  | null
  | bool (value : Bool)
  | natural (value : Nat)
  | number (literal : List Char)
  | string (text : Option String)
deriving DecidableEq

namespace Token

/-! ## Strings -/

/-- One part of a string: a character, or a surrogate that an escape names. -/
inductive Part where
  | char (c : Char)
  | surrogate (unit : Nat)

def Part.ofUnit (unit : Nat) : Part :=
  if 0xd800 ≤ unit ∧ unit < 0xe000 then .surrogate unit else .char (Char.ofNat unit)

/-- The text of the parts: a high surrogate and the low one behind it make one character. -/
def joinParts? : List Part → Option (List Char)
  | [] => some []
  | .char c :: rest => (joinParts? rest).map (c :: ·)
  | .surrogate high :: .surrogate low :: rest =>
    if high < 0xdc00 ∧ 0xdc00 ≤ low then
      (joinParts? rest).map (Char.ofNat (0x10000 + (high - 0xd800) * 0x400 + (low - 0xdc00)) :: ·)
    else none
  | .surrogate _ :: _ => none

def escaped? : Char → Option Char
  | '"' => some '"'
  | '\\' => some '\\'
  | '/' => some '/'
  | 'b' => some '\x08'
  | 'f' => some '\x0c'
  | 'n' => some '\n'
  | 'r' => some '\r'
  | 't' => some '\t'
  | _ => none

/-- The parts of a string up to its closing quote, and the text behind the quote. -/
def scanString? : List Char → Option (List Part × List Char)
  | [] => none
  | '"' :: rest => some ([], rest)
  | '\\' :: 'u' :: a :: b :: c :: d :: rest =>
    match Text.Numeral.continueDigits? 16 0 [a, b, c, d], scanString? rest with
    | some unit, some (parts, behind) => some (Part.ofUnit unit :: parts, behind)
    | _, _ => none
  | '\\' :: c :: rest =>
    match escaped? c, scanString? rest with
    | some e, some (parts, behind) => some (.char e :: parts, behind)
    | _, _ => none
  | c :: rest =>
    if c.toNat < 0x20 then none
    else (scanString? rest).map fun (parts, behind) => (.char c :: parts, behind)

theorem scanString?_length {text : List Char} {parts : List Part} {rest : List Char}
    (h : scanString? text = some (parts, rest)) : rest.length < text.length := by
  fun_induction scanString? text generalizing parts rest with
  | case1 => simp at h
  | case2 => simp_all
  | case3 a b c d text unit ps behind hr hu ih =>
    simp only [Option.some.injEq, Prod.mk.injEq] at h
    have := ih hr
    simp only [List.length_cons, ← h.2]
    omega
  | case4 => simp at h
  | case5 c text _ e ps behind hr hu ih =>
    simp only [Option.some.injEq, Prod.mk.injEq] at h
    have := ih hr
    simp only [List.length_cons, ← h.2]
    omega
  | case6 => simp at h
  | case7 => simp at h
  | case8 c text _ _ _ _ ih =>
    obtain ⟨⟨ps, behind⟩, hr, h⟩ := Option.map_eq_some_iff.1 h
    simp only [Prod.mk.injEq] at h
    have := ih hr
    simp only [List.length_cons, ← h.2]
    omega

/-! ## Numbers -/

/-- The digits at the front of a text, at least one, and the text behind them. -/
def scanDigits? (text : List Char) : Option (List Char × List Char) :=
  match text.takeWhile Char.isDigit with
  | [] => none
  | digits => some (digits, text.dropWhile Char.isDigit)

/-- A whole part: a lone zero, or digits of which the first is no zero. -/
def scanWhole? : List Char → Option (List Char × List Char)
  | '0' :: rest => some (['0'], rest)
  | text => scanDigits? text

def scanFraction? : List Char → Option (List Char × List Char)
  | '.' :: rest => (scanDigits? rest).map fun (digits, behind) => ('.' :: digits, behind)
  | text => some ([], text)

def scanExponent? : List Char → Option (List Char × List Char)
  | 'e' :: rest | 'E' :: rest =>
    match rest with
    | '+' :: rest => (scanDigits? rest).map fun (digits, behind) => ('e' :: '+' :: digits, behind)
    | '-' :: rest => (scanDigits? rest).map fun (digits, behind) => ('e' :: '-' :: digits, behind)
    | rest => (scanDigits? rest).map fun (digits, behind) => ('e' :: digits, behind)
  | text => some ([], text)

def scanUnsigned? (text : List Char) : Option (List Char × List Char × List Char) := do
  let (whole, text) ← scanWhole? text
  let (fraction, text) ← scanFraction? text
  let (exponent, text) ← scanExponent? text
  return (whole, fraction ++ exponent, text)

def scanNumber? : List Char → Option (Token × List Char)
  | '-' :: text =>
    (scanUnsigned? text).map fun (whole, tail, rest) => (.number ('-' :: whole ++ tail), rest)
  | text =>
    (scanUnsigned? text).map fun (whole, tail, rest) =>
      if tail.isEmpty then (.natural (Nat.ofDigitChars 10 whole 0), rest)
      else (.number (whole ++ tail), rest)

theorem scanDigits?_length {text digits rest : List Char}
    (h : scanDigits? text = some (digits, rest)) : rest.length < text.length := by
  unfold scanDigits? at h
  have hsum := congrArg List.length
    (List.takeWhile_append_dropWhile (p := Char.isDigit) (l := text))
  simp only [List.length_append] at hsum
  split at h
  · simp at h
  · next hne =>
    simp only [Option.some.injEq, Prod.mk.injEq] at h
    have : (text.takeWhile Char.isDigit).length ≠ 0 := fun h0 =>
      hne (List.length_eq_zero_iff.1 h0)
    rw [← h.2]
    omega

theorem scanWhole?_length {text digits rest : List Char}
    (h : scanWhole? text = some (digits, rest)) : rest.length < text.length := by
  unfold scanWhole? at h
  split at h
  · simp only [Option.some.injEq, Prod.mk.injEq] at h
    simp [h.2]
  · exact scanDigits?_length h

/-- What stands behind the digits is shorter than the text, whatever is put in front of the digits. -/
theorem length_lt_of_map_scanDigits? {text digits rest : List Char}
    {mark : List Char × List Char → List Char × List Char}
    (h : (scanDigits? text).map mark = some (digits, rest)) (hmark : ∀ d b, (mark (d, b)).2 = b) :
    rest.length < text.length := by
  obtain ⟨⟨d, b⟩, hd, heq⟩ := Option.map_eq_some_iff.1 h
  obtain rfl : b = rest := by rw [← hmark d b, heq]
  exact scanDigits?_length hd

theorem scanFraction?_length {text digits rest : List Char}
    (h : scanFraction? text = some (digits, rest)) : rest.length ≤ text.length := by
  unfold scanFraction? at h
  split at h
  · have hlt := length_lt_of_map_scanDigits? h fun _ _ => rfl
    exact Nat.le_of_lt (Nat.lt_add_right 1 hlt)
  · simp only [Option.some.injEq, Prod.mk.injEq] at h
    simp [h.2]

theorem scanExponent?_length {text digits rest : List Char}
    (h : scanExponent? text = some (digits, rest)) : rest.length ≤ text.length := by
  unfold scanExponent? at h
  split at h
  case h_1 | h_2 =>
    split at h
    case h_1 | h_2 =>
      have hlt := length_lt_of_map_scanDigits? h fun _ _ => rfl
      exact Nat.le_of_lt (Nat.lt_add_right 2 hlt)
    case h_3 =>
      have hlt := length_lt_of_map_scanDigits? h fun _ _ => rfl
      exact Nat.le_of_lt (Nat.lt_add_right 1 hlt)
  case h_3 =>
    simp only [Option.some.injEq, Prod.mk.injEq] at h
    simp [h.2]

theorem scanUnsigned?_length {text whole tail rest : List Char}
    (h : scanUnsigned? text = some (whole, tail, rest)) : rest.length < text.length := by
  simp only [scanUnsigned?, Option.bind_eq_bind, Option.bind_eq_some_iff, Option.pure_def,
    Option.some.injEq, Prod.mk.injEq] at h
  obtain ⟨⟨_, t1⟩, h1, ⟨_, t2⟩, h2, ⟨_, t3⟩, h3, _, _, rfl⟩ := h
  have := scanWhole?_length h1
  have := scanFraction?_length h2
  have := scanExponent?_length h3
  simp_all only
  omega

theorem scanNumber?_length {text : List Char} {token : Token} {rest : List Char}
    (h : scanNumber? text = some (token, rest)) : rest.length < text.length := by
  unfold scanNumber? at h
  split at h
  · obtain ⟨⟨w, t, b⟩, hd, h⟩ := Option.map_eq_some_iff.1 h
    simp only [Prod.mk.injEq] at h
    have := scanUnsigned?_length hd
    simp only [List.length_cons, ← h.2]
    omega
  · obtain ⟨⟨w, t, b⟩, hd, h⟩ := Option.map_eq_some_iff.1 h
    have := scanUnsigned?_length hd
    dsimp only at h
    split at h <;> cases h <;> exact this

/-! ## All tokens -/

/-- The tokens of a text, or nothing if a part of the text is no token. -/
def scan? : List Char → Option (List Token)
  | [] => some []
  | ' ' :: rest | '\t' :: rest | '\n' :: rest | '\r' :: rest => scan? rest
  | '[' :: rest => (scan? rest).map (openArray :: ·)
  | ']' :: rest => (scan? rest).map (closeArray :: ·)
  | '\x7b' :: rest => (scan? rest).map (openObject :: ·)
  | '\x7d' :: rest => (scan? rest).map (closeObject :: ·)
  | ',' :: rest => (scan? rest).map (comma :: ·)
  | ':' :: rest => (scan? rest).map (colon :: ·)
  | 'n' :: 'u' :: 'l' :: 'l' :: rest => (scan? rest).map (null :: ·)
  | 't' :: 'r' :: 'u' :: 'e' :: rest => (scan? rest).map (bool true :: ·)
  | 'f' :: 'a' :: 'l' :: 's' :: 'e' :: rest => (scan? rest).map (bool false :: ·)
  | '"' :: rest =>
    match h : scanString? rest with
    | none => none
    | some (parts, behind) =>
      have := scanString?_length h
      (scan? behind).map (string ((joinParts? parts).map String.ofList) :: ·)
  | text =>
    match h : scanNumber? text with
    | none => none
    | some (token, behind) =>
      have := scanNumber?_length h
      (scan? behind).map (token :: ·)
termination_by text => text.length
decreasing_by all_goals (try simp only [List.length_cons]); omega

end Token

end FirmwareLift.Json
