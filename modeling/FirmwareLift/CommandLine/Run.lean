import FirmwareLift.CommandLine.Options
import FirmwareLift.Descriptor.Read
import FirmwareLift.Session

/-!
# Running the command line

What a command line does, given what its files hold: it prints a text, saves it to a file, or fails
with a report.
-/

namespace FirmwareLift.CommandLine

open Text.Numeral (hex8)

/-! ## Failures -/

inductive FileError where
  | notFound
  | isDirectory
  | notDirectory
  | nameTooLong
  | noSpace
  | notText
  | other (text : String)
deriving DecidableEq, Repr

def FileError.message : FileError → String
  | notFound => "No such file or directory (os error 2)"
  | isDirectory => "Is a directory (os error 21)"
  | notDirectory => "Not a directory (os error 20)"
  | nameTooLong => "File name too long (os error 36)"
  | noSpace => "No space left on device (os error 28)"
  | notText => "stream did not contain valid UTF-8"
  | other text => text

inductive Failure where
  | descriptorFile (path : String) (error : FileError)
  | descriptor (path : String) (error : DescriptorError)
  | firmwareFile (path : String) (error : FileError)
  | stage (error : StageError)
  | invalidAddress (text : String)
  | noFunction (address : Address)
  | outputFile (path : String) (error : FileError)
deriving DecidableEq, Repr

namespace Failure

def headline : Failure → String
  | descriptorFile path _ | descriptor path _ => s!"loading architecture {path}"
  | firmwareFile path _ => s!"loading firmware {path}"
  | stage _ => "decompilation failed"
  | invalidAddress text => s!"invalid address '{text}'"
  | noFunction address => s!"no function contains {hex8 address}"
  | outputFile path _ => s!"writing output {path}"

/-- What caused the failure, the nearest cause first. -/
def causes : Failure → List String
  | descriptorFile _ error | firmwareFile _ error =>
    [s!"I/O error: {error.message}", error.message]
  | descriptor _ error => [error.message]
  | stage error => [error.message]
  | outputFile _ error => [error.message]
  | invalidAddress _ | noFunction _ => []

/-- The causes on lines of their own, numbered if there are several. -/
def causeLines (failure : Failure) : List String :=
  match failure.causes with
  | [cause] => [s!"    {cause}"]
  | causes => causes.zipIdx.map fun (cause, index) => s!"    {index}: {cause}"

def report (failure : Failure) : String :=
  let lines := failure.causeLines
  s!"Error: {failure.headline}" ++
    if lines.isEmpty then "" else "\n\nCaused by:\n" ++ "\n".intercalate lines

end Failure

/-! ## Output -/

/-- A heading behind an empty line, and comments below it. -/
def appendix (heading : String) (lines : List String) : String :=
  String.join (s!"\n// {heading}\n" :: lines.map fun line => s!"// {line}\n")

def stringLine (entry : Address × String) : String :=
  s!"{hex8 entry.1}: " ++ String.ofList (Text.quote Text.escapePrintable entry.2.toList)

def constantLine (entry : Address × Word) : String :=
  s!"{hex8 entry.1}: {hex8 entry.2}"

def usageLine (entry : String × Nat) : String :=
  s!"{String.ofList (Text.padEnd 32 entry.1.toList)} {entry.2}"

def appendices (options : Options) (session : Session) : String :=
  (if options.strings then appendix "Strings" (session.strings.map stringLine) else "") ++
    (if options.constants then appendix "Constants" (session.constants.map constantLine) else "") ++
    (if options.apiSummary then appendix "API usage" (session.usage.toList.map usageLine) else "")

/-- The routines that are written: all, or the one that contains the given address. -/
def selected (options : Options) (session : Session) : Except Failure (List Routine) :=
  match options.function with
  | none => .ok session.routines
  | some text =>
    match Operand.value? text with
    | none => .error (.invalidAddress text)
    | some address =>
      match session.routineAt? address with
      | none => .error (.noFunction address)
      | some routine => .ok [routine]

/-! ## Runs -/

/-- What a file holds, by its path. -/
abbrev Files := String → Except FileError ByteArray

/-- The descriptor that the options name, with the heuristic that they choose. -/
def chosenDescriptor (files : Files) (options : Options) : Except Failure Descriptor := do
  let descriptor ← match options.descriptor with
    | none => pure Descriptor.esp32
    | some path =>
      match files path with
      | .error error => throw (.descriptorFile path error)
      | .ok bytes =>
        match String.fromUTF8? bytes with
        | none => throw (.descriptorFile path .notText)
        | some text => (Descriptor.parse text).mapError (.descriptor path)
  match options.loopHeuristic with
  | none => return descriptor
  | some heuristic =>
    return { descriptor with
      analysis := { descriptor.analysis with loopHeuristic := heuristic } }

def output (files : Files) (options : Options) : Except Failure String := do
  let descriptor ← chosenDescriptor files options
  let bytes ← (files options.firmware).mapError (.firmwareFile options.firmware)
  let session ← ((Session.new descriptor).load bytes.data).decompile.2.mapError .stage
  let routines ← selected options session
  return session.rendered options.format routines ++ appendices options session

/-- What a command line asks the outer layer to do. -/
inductive Outcome where
  | refuse (error : UsageError)
  | fail (failure : Failure)
  | print (text : String)
  | save (path : String) (text : String)

def execute (files : Files) (arguments : List String) : Outcome :=
  match parse arguments with
  | .error error => .refuse error
  | .ok .version => .print s!"{programVersion}\n"
  | .ok (.run options) =>
    match output files options with
    | .error failure => .fail failure
    | .ok text =>
      match options.output with
      | none => .print text
      | some path => .save path text

end FirmwareLift.CommandLine
