import FirmwareLift.Text

/-!
# JSON

Values as a text writes them, and the text that is written for a value.
-/

namespace FirmwareLift

/-! ## JSON values

Values as a text writes them: fields keep their order and may repeat, and only whole numbers without
a sign are read as numbers. -/

/--
A string that holds an unpaired surrogate denotes no text, which `none` stands for, both as a value
and as the name of a field.
-/
inductive Json where
  | null
  | bool (value : Bool)
  | natural (value : Nat)
  /-- Any number with a sign, a fraction or an exponent, as it is written. -/
  | number (literal : List Char)
  | string (text : Option String)
  | array (items : List Json)
  | object (fields : List (Option String × Json))

namespace Json

def ofString (text : String) : Json :=
  .string (some text)

def ofFields (fields : List (String × Json)) : Json :=
  .object (fields.map fun field => (some field.1, field.2))

/-- The value of the last field of a name. -/
def get? (name : String) : Json → Option Json
  | .object fields => (fields.reverse.find? fun field => field.1 = some name).map (·.2)
  | _ => none

/-! ## Writing JSON

A value on several lines: every item and field on a line of its own, two blanks further in than the
array or object around it. Empty arrays and objects take one line. -/

def newline (depth : Nat) : List Char :=
  '\n' :: List.replicate (2 * depth) ' '

def stringText (text : Option String) : List Char :=
  Text.quote Text.escapeJson (text.getD "").toList

mutual

def lines (depth : Nat) : Json → List Char
  | null => ['n', 'u', 'l', 'l']
  | bool true => ['t', 'r', 'u', 'e']
  | bool false => ['f', 'a', 'l', 's', 'e']
  | natural value => Nat.toDigits 10 value
  | number literal => literal
  | string text => stringText text
  | array [] => ['[', ']']
  | array (item :: rest) =>
    '[' :: newline (depth + 1) ++ lines (depth + 1) item ++ itemLines (depth + 1) rest ++
      newline depth ++ [']']
  | object [] => ['\x7b', '\x7d']
  | object ((name, value) :: rest) =>
    '\x7b' :: newline (depth + 1) ++ stringText name ++ [':', ' '] ++ lines (depth + 1) value ++
      fieldLines (depth + 1) rest ++ newline depth ++ ['\x7d']

def itemLines (depth : Nat) : List Json → List Char
  | [] => []
  | item :: rest => ',' :: newline depth ++ lines depth item ++ itemLines depth rest

def fieldLines (depth : Nat) : List (Option String × Json) → List Char
  | [] => []
  | (name, value) :: rest =>
    ',' :: newline depth ++ stringText name ++ [':', ' '] ++ lines depth value ++
      fieldLines depth rest

end

def render (json : Json) : String :=
  String.ofList (json.lines 0)

end Json

end FirmwareLift
