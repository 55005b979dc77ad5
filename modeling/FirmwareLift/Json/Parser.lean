import FirmwareLift.Json.Basic
import FirmwareLift.Json.Token

/-!
# Reading JSON

A value from the tokens of a text, and the fields of a record from a value.
-/

namespace FirmwareLift.Json

/-! ## Values

A text is read token by token. Between two tokens the reader knows what may follow and which arrays
and objects are still open, so nesting is not limited. -/

/-- An open array or object with what it holds so far, the last item first. -/
inductive Frame where
  | array (items : List Json)
  | object (fields : List (Option String × Json)) (name : Option String)

/-- What may follow the tokens read so far. -/
inductive Cursor where
  | wantValue (frames : List Frame)
  | wantItem (frames : List Frame)
  | wantFirstName (frames : List Frame)
  | wantName (fields : List (Option String × Json)) (frames : List Frame)
  | wantColon (fields : List (Option String × Json)) (name : Option String) (frames : List Frame)
  | behindItem (items : List Json) (frames : List Frame)
  | behindField (fields : List (Option String × Json)) (frames : List Frame)
  | done (json : Json)

/-- Hands a complete value to the innermost open frame. -/
def Cursor.complete (json : Json) : List Frame → Cursor
  | [] => .done json
  | .array items :: rest => .behindItem (json :: items) rest
  | .object fields name :: rest => .behindField ((name, json) :: fields) rest

/-- Starts a value with its first token. -/
def Cursor.begin? (frames : List Frame) : Token → Option Cursor
  | .openArray => some (.wantItem frames)
  | .openObject => some (.wantFirstName frames)
  | .null => some (complete .null frames)
  | .bool value => some (complete (.bool value) frames)
  | .natural value => some (complete (.natural value) frames)
  | .number literal => some (complete (.number literal) frames)
  | .string text => some (complete (.string text) frames)
  | .closeArray | .closeObject | .comma | .colon => none

def Cursor.step? : Cursor → Token → Option Cursor
  | .wantValue frames, token => begin? frames token
  | .wantItem frames, .closeArray => some (complete (.array []) frames)
  | .wantItem frames, token => begin? (.array [] :: frames) token
  | .wantFirstName frames, .closeObject => some (complete (.object []) frames)
  | .wantFirstName frames, .string text => some (.wantColon [] text frames)
  | .wantName fields frames, .string text => some (.wantColon fields text frames)
  | .wantColon fields name frames, .colon => some (.wantValue (.object fields name :: frames))
  | .behindItem items frames, .comma => some (.wantValue (.array items :: frames))
  | .behindItem items frames, .closeArray => some (complete (.array items.reverse) frames)
  | .behindField fields frames, .comma => some (.wantName fields frames)
  | .behindField fields frames, .closeObject => some (complete (.object fields.reverse) frames)
  | _, _ => none

def Cursor.result? : Cursor → Option Json
  | .done json => some json
  | _ => none

/-- The value that a text denotes; blanks aside, nothing may stand before or behind it. -/
def parse? (text : String) : Option Json := do
  let tokens ← Token.scan? text.toList
  let cursor ← tokens.foldlM Cursor.step? (.wantValue [])
  cursor.result?

/-! ## Records

A record is written as an object, or as an array of its fields in the order of their declaration.
Fields of other names are ignored; a field that is given twice is an error. -/

/-- The fields of a record that a value gives, by name. -/
abbrev Record := List (String × Json)

def knownFields (names : List String) (fields : List (Option String × Json)) : Record :=
  fields.filterMap fun field =>
    match field.1 with
    | some name => if name ∈ names then some (name, field.2) else none
    | none => none

/-- Fails on a field given twice, a name that denotes no text, and more items than fields. -/
def record? (names : List String) : Json → Option Record
  | .object fields =>
    let known := knownFields names fields
    if fields.all (·.1.isSome) ∧ (known.map (·.1)).Nodup then some known else none
  | .array items => if items.length ≤ names.length then some (names.zip items) else none
  | _ => none

namespace Record

variable {α : Type}

/-- The value of a field, or `missing` where the field is not given. -/
def getD (record : Record) (name : String) (read? : Json → Option α) (missing : α) : Option α :=
  match record.find? fun field => field.1 = name with
  | some field => read? field.2
  | none => some missing

def get? (record : Record) (name : String) (read? : Json → Option α) : Option α :=
  (record.find? fun field => field.1 = name).bind fun field => read? field.2

end Record

/-! ## Values of fields -/

def text? : Json → Option String
  | .string text => text
  | _ => none

def word? : Json → Option UInt32
  | .natural value => if value < UInt32.size then some (UInt32.ofNat value) else none
  | _ => none

def word64? : Json → Option UInt64
  | .natural value => if value < UInt64.size then some (UInt64.ofNat value) else none
  | _ => none

/-- `null` stands for a value that is absent. -/
def nullable? {α : Type} (read? : Json → Option α) : Json → Option (Option α)
  | .null => some none
  | json => (read? json).map some

def items? {α : Type} (read? : Json → Option α) : Json → Option (List α)
  | .array items => items.mapM read?
  | _ => none

/-- The entries of an object with arbitrary names, each of which denotes text. -/
def entries? {α : Type} (read? : Json → Option α) : Json → Option (List (String × α))
  | .object fields => fields.mapM fun field => do
    let name ← field.1
    let value ← read? field.2
    return (name, value)
  | _ => none

end FirmwareLift.Json
