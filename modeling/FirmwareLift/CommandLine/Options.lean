import FirmwareLift.Descriptor.Basic
import FirmwareLift.Output

/-!
# Options

The options of the command line and how arguments set them. Arguments are read from left to right;
no option may be given twice, and asking for the version ends the reading.
-/

namespace FirmwareLift.CommandLine

structure Options where
  firmware : String
  format : OutputFormat
  descriptor : Option String
  output : Option String
  loopHeuristic : Option LoopHeuristic
  /-- Only the function that contains this address is written. -/
  function : Option String
  strings : Bool
  constants : Bool
  apiSummary : Bool
  verbose : Bool
deriving DecidableEq

/-- An option that takes a value. -/
inductive ValueOption where
  | format
  | descriptor
  | output
  | loopHeuristic
  | function
deriving DecidableEq, Repr

inductive Flag where
  | strings
  | constants
  | apiSummary
  | verbose
  | version
deriving DecidableEq, Repr

/-- An option with its value, a flag, or an argument that is no option. -/
inductive Setting where
  | firmware (path : String)
  | value (option : ValueOption) (text : String)
  | flag (flag : Flag)
deriving DecidableEq, Repr

inductive UsageError where
  | unknownOption
  | missingValue (option : ValueOption)
  | invalidValue (option : ValueOption) (text : String)
  | emptyPath
  | unneededValue (flag : Flag)
  | repeated
  | unexpectedArgument (text : String)
  | missingFirmware
deriving DecidableEq, Repr

def ValueOption.name : ValueOption → String
  | format => "--format"
  | descriptor => "--arch"
  | output => "--output"
  | loopHeuristic => "--loop-heuristic"
  | function => "--function"

def Flag.name : Flag → String
  | strings => "--strings"
  | constants => "--constants"
  | apiSummary => "--api-summary"
  | verbose => "--verbose"
  | version => "--version"

def UsageError.message : UsageError → String
  | unknownOption => "unknown option"
  | missingValue option => s!"{option.name} needs a value"
  | invalidValue option text => s!"{option.name} does not know '{text}'"
  | emptyPath => "a path is empty"
  | unneededValue flag => s!"{flag.name} takes no value"
  | repeated => "an option is given twice"
  | unexpectedArgument text => s!"unexpected argument '{text}'"
  | missingFirmware => "no firmware is given"

inductive Request where
  | version
  | run (options : Options)

/-! ## One argument -/

inductive Name where
  | value (option : ValueOption)
  | flag (flag : Flag)

def Name.ofLong? : String → Option Name
  | "format" => some (.value .format)
  | "arch" => some (.value .descriptor)
  | "output" => some (.value .output)
  | "loop-heuristic" => some (.value .loopHeuristic)
  | "function" => some (.value .function)
  | "strings" => some (.flag .strings)
  | "constants" => some (.flag .constants)
  | "api-summary" => some (.flag .apiSummary)
  | "verbose" => some (.flag .verbose)
  | "version" => some (.flag .version)
  | _ => none

def Name.ofShort? : Char → Option Name
  | 'f' => some (.value .format)
  | 'a' => some (.value .descriptor)
  | 'o' => some (.value .output)
  | 'v' => some (.flag .verbose)
  | 'V' => some (.flag .version)
  | _ => none

/-- What an argument asks for: a setting, or an option whose value is the next argument. -/
inductive Item where
  | setting (s : Setting)
  | awaiting (option : ValueOption)
  | wrong (error : UsageError)

/-- What stands before the first equals sign, and what stands behind it if there is one. -/
def splitValue : List Char → List Char × Option (List Char)
  | [] => ([], none)
  | '=' :: rest => ([], some rest)
  | c :: rest =>
    let (name, value) := splitValue rest
    (c :: name, value)

def longItem (text : List Char) : Item :=
  let (name, value) := splitValue text
  match Name.ofLong? (String.ofList name), value with
  | none, _ => .wrong .unknownOption
  | some (.value option), some value => .setting (.value option (String.ofList value))
  | some (.value option), none => .awaiting option
  | some (.flag flag), some _ => .wrong (.unneededValue flag)
  | some (.flag flag), none => .setting (.flag flag)

/-- A cluster of short options; the first one that takes a value takes all the rest. -/
def shortItems : List Char → List Item
  | [] => []
  | c :: rest =>
    match Name.ofShort? c with
    | none => [.wrong .unknownOption]
    | some (.flag flag) => .setting (.flag flag) :: shortItems rest
    | some (.value option) =>
      match rest with
      | [] => [.awaiting option]
      | '=' :: value => [.setting (.value option (String.ofList value))]
      | value => [.setting (.value option (String.ofList value))]

/-- A lone dash is an argument like any other that does not start with a dash. -/
def itemsOf (argument : String) : List Item :=
  match argument.toList with
  | '-' :: '-' :: text => [longItem text]
  | '-' :: c :: text => shortItems (c :: text)
  | _ => [.setting (.firmware argument)]

/-- Whether an argument can be the value of the option before it. -/
def isValue (argument : String) : Bool :=
  match argument.toList with
  | '-' :: _ :: _ => false
  | _ => true

def Item.result : Item → Except UsageError Setting
  | .setting s => .ok s
  | .awaiting option => .error (.missingValue option)
  | .wrong error => .error error

/--
All that the arguments ask for, in order. An option that awaits a value takes the next argument.
Behind `--` no argument is an option.
-/
def settings : List String → List (Except UsageError Setting)
  | [] => []
  | "--" :: rest => rest.map fun argument => .ok (.firmware argument)
  | argument :: rest =>
    let items := itemsOf argument
    match rest with
    | [] => items.map Item.result
    | next :: later =>
      match items.getLast? with
      | some (.awaiting option) =>
        if isValue next then
          items.dropLast.map Item.result ++ .ok (.value option next) :: settings later
        else items.map Item.result ++ settings (next :: later)
      | _ => items.map Item.result ++ settings (next :: later)

/-! ## All arguments -/

/-- What the arguments have set so far. -/
structure Choices where
  firmware : Option String := none
  format : Option OutputFormat := none
  descriptor : Option String := none
  output : Option String := none
  loopHeuristic : Option LoopHeuristic := none
  function : Option String := none
  flags : List Flag := []

def once {α : Type} (old : Option α) (new : α) : Except UsageError (Option α) :=
  if old.isSome then .error .repeated else .ok (some new)

def path (text : String) : Except UsageError String :=
  if text.isEmpty then .error .emptyPath else .ok text

def heuristicOfName? : String → Option LoopHeuristic
  | "dominance" => some .dominance
  | "address-order" => some .addressOrder
  | _ => none

/-- The meaning of a value, which has to be one that the option knows. -/
def meaning {α : Type} (option : ValueOption) (read? : String → Option α) (text : String) :
    Except UsageError α :=
  match read? text with
  | some value => .ok value
  | none => .error (.invalidValue option text)

namespace Choices

variable (choices : Choices)

def setValue (text : String) : ValueOption → Except UsageError Choices
  | .format => do
    let format ← meaning .format OutputFormat.ofName? text
    return { choices with format := ← once choices.format format }
  | .descriptor => do
    return { choices with descriptor := ← once choices.descriptor (← path text) }
  | .output => do return { choices with output := ← once choices.output (← path text) }
  | .loopHeuristic => do
    let heuristic ← meaning .loopHeuristic heuristicOfName? text
    return { choices with loopHeuristic := ← once choices.loopHeuristic heuristic }
  | .function => do return { choices with function := ← once choices.function text }

def set : Setting → Except UsageError Choices
  | .firmware text =>
    if choices.firmware.isSome then .error (.unexpectedArgument text)
    else do return { choices with firmware := some (← path text) }
  | .value option text => choices.setValue text option
  | .flag flag =>
    if flag ∈ choices.flags then .error .repeated
    else .ok { choices with flags := choices.flags ++ [flag] }

/-- The options that the choices make; all but the firmware may be left out. -/
def toOptions : Except UsageError Options :=
  match choices.firmware with
  | none => .error .missingFirmware
  | some firmware =>
    .ok {
      firmware
      format := choices.format.getD .pseudo
      descriptor := choices.descriptor
      output := choices.output
      loopHeuristic := choices.loopHeuristic
      function := choices.function
      strings := .strings ∈ choices.flags
      constants := .constants ∈ choices.flags
      apiSummary := .apiSummary ∈ choices.flags
      verbose := .verbose ∈ choices.flags }

/-- Applies settings in order, up to a request for the version. -/
def setAll (choices : Choices) : List (Except UsageError Setting) → Except UsageError Request
  | [] => choices.toOptions.map .run
  | .ok (.flag .version) :: _ => .ok .version
  | .ok setting :: rest => do setAll (← choices.set setting) rest
  | .error error :: _ => .error error

end Choices

def parse (arguments : List String) : Except UsageError Request :=
  ({} : Choices).setAll (settings arguments)

end FirmwareLift.CommandLine
