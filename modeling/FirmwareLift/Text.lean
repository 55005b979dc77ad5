/-!
# Text

Text as lists of characters: blanks and their removal, search, numerals, and quoting.
-/

namespace FirmwareLift.Text

/-! ## Blank characters

The White_Space property of Unicode, and the trimming of text by it. -/

/-- The code points with the White_Space property, as inclusive ranges in ascending order. -/
def blankRanges : List (Nat × Nat) :=
  [(0x09, 0x0d), (0x20, 0x20), (0x85, 0x85), (0xa0, 0xa0), (0x1680, 0x1680), (0x2000, 0x200a),
    (0x2028, 0x2029), (0x202f, 0x202f), (0x205f, 0x205f), (0x3000, 0x3000)]

def isBlank (c : Char) : Bool :=
  blankRanges.any fun range => range.1 ≤ c.toNat && c.toNat ≤ range.2

def trimStart (text : List Char) : List Char :=
  text.dropWhile isBlank

def trimEnd (text : List Char) : List Char :=
  (text.reverse.dropWhile isBlank).reverse

def trim (text : List Char) : List Char :=
  trimEnd (trimStart text)

/-! ## Search

Looking for one text in another. -/

def contains (part : List Char) : List Char → Bool
  | [] => part.isEmpty
  | c :: rest => part.isPrefixOf (c :: rest) || contains part rest

/-- Whether a lowercase `part` stands somewhere in a text, in whatever case of ASCII letters. -/
def containsIgnoringCase (part text : List Char) : Bool :=
  contains part (text.map Char.toLower)

theorem contains_iff {part text : List Char} : contains part text ↔ part <:+: text := by
  induction text with
  | nil => simp [contains]
  | cons c rest ih => simp [contains, ih, List.infix_cons_iff]

/-! ## Numerals

Reading and writing whole numbers in a positional base. A numeral that is read may carry a plus
sign, has at least one digit, and is not bounded in length; the caller bounds the value. -/

namespace Numeral

/-- The value of an ASCII digit; letters of either case continue after nine. -/
def digitValue? (c : Char) : Option Nat :=
  if '0' ≤ c ∧ c ≤ '9' then some (c.toNat - 48)
  else if 'a' ≤ c ∧ c ≤ 'z' then some (c.toNat - 87)
  else if 'A' ≤ c ∧ c ≤ 'Z' then some (c.toNat - 55)
  else none

/-- Reads `digits` behind digits of value `high`; fails on anything that is no digit of `base`. -/
def continueDigits? (base high : Nat) : List Char → Option Nat
  | [] => some high
  | c :: rest =>
    match digitValue? c with
    | none => none
    | some digit => if digit < base then continueDigits? base (high * base + digit) rest else none

def digits? (base : Nat) : List Char → Option Nat
  | [] => none
  | text => continueDigits? base 0 text

/-- One or more digits, behind at most one plus sign. -/
def unsigned? (base : Nat) : List Char → Option Nat
  | '+' :: rest => digits? base rest
  | text => digits? base text

/-- A numeral of the given base whose value lies below `bound`. -/
def below? (bound base : Nat) (text : List Char) : Option Nat :=
  (unsigned? base text).filter (· < bound)

/-- Lowercase hexadecimal digits, without leading zeros. -/
def hexDigits (n : Nat) : List Char :=
  Nat.toDigits 16 n

/-- Lowercase hexadecimal digits, at least eight of them. -/
def hexDigits8 (n : Nat) : List Char :=
  List.leftpad 8 '0' (hexDigits n)

/-- A word as `0x` and its hexadecimal digits. -/
def hex (word : UInt32) : String :=
  String.ofList ('0' :: 'x' :: hexDigits word.toNat)

/-- A word as `0x` and eight hexadecimal digits. -/
def hex8 (word : UInt32) : String :=
  String.ofList ('0' :: 'x' :: hexDigits8 word.toNat)

/-- The eight hexadecimal digits of a word, without a mark of the base. -/
def bareHex8 (word : UInt32) : String :=
  String.ofList (hexDigits8 word.toNat)

end Numeral

/-! ## Quoted text

Text between double quotes, in the three dialects of the outputs: a literal of printable text, a
JSON string, and a field of a CSV record. -/

def quote (escape : Char → List Char) (text : List Char) : List Char :=
  '"' :: text.flatMap escape ++ ['"']

/-- Printable text needs no other escapes. -/
def escapePrintable : Char → List Char
  | '"' => ['\\', '"']
  | '\\' => ['\\', '\\']
  | '\t' => ['\\', 't']
  | c => [c]

/-- Control characters are escaped, by a letter where there is one. -/
def escapeJson : Char → List Char
  | '"' => ['\\', '"']
  | '\\' => ['\\', '\\']
  | '\x08' => ['\\', 'b']
  | '\x0c' => ['\\', 'f']
  | '\n' => ['\\', 'n']
  | '\r' => ['\\', 'r']
  | '\t' => ['\\', 't']
  | c =>
    if c.toNat < 0x20 then '\\' :: 'u' :: List.leftpad 4 '0' (Numeral.hexDigits c.toNat) else [c]

/-- A quote is written twice. -/
def escapeCsv (c : Char) : List Char :=
  if c = '"' then ['"', '"'] else [c]

/-- A field that holds a separator, a quote or the end of a line is quoted. -/
def csvField (field : List Char) : List Char :=
  if field.any fun c => c = ',' || c = '"' || c = '\n' || c = '\r' then quote escapeCsv field
  else field

/-- Text with blanks behind it, so that it has at least `width` characters. -/
def padEnd (width : Nat) (text : List Char) : List Char :=
  text ++ List.replicate (width - text.length) ' '

end FirmwareLift.Text
