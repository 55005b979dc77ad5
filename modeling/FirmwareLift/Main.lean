import FirmwareLift.CommandLine.Run

/-!
# The program

Runs a command line against the files of the machine.
-/

namespace FirmwareLift

open CommandLine (FileError Outcome Request)

/-- A failure of the machine in the words of the report. Some operations negate the code. -/
def fileError : IO.Error → FileError
  | .noFileOrDirectory .. => .notFound
  | .inappropriateType _ code _ => if code = 21 ∨ code = -21 then .isDirectory else .notDirectory
  | error@(.invalidArgument _ code _) =>
    if code = 36 ∨ code = -36 then .nameTooLong else .other error.toString
  | error@(.resourceExhausted _ code _) =>
    if code = 28 ∨ code = -28 then .noSpace else .other error.toString
  | other => .other other.toString

def readFile (path : String) : IO (Except FileError ByteArray) := do
  try
    return .ok (← IO.FS.readBinFile path)
  catch error => return .error (fileError error)

/-- Reads the files that a command line names, before it runs. -/
def readNamed (arguments : List String) : IO CommandLine.Files := do
  let paths := match CommandLine.parse arguments with
    | .ok (.run options) => options.firmware :: options.descriptor.toList
    | _ => []
  let contents ← paths.mapM fun path => do return (path, ← readFile path)
  return fun path => (contents.lookup path).getD (.error .notFound)

def report (failure : CommandLine.Failure) : IO UInt32 := do
  IO.eprintln failure.report
  return 1

def save (path text : String) : IO UInt32 := do
  try
    IO.FS.withFile path .write fun file => do
      file.putStr text
      file.flush
    return 0
  catch error => report (.outputFile path (fileError error))

end FirmwareLift

open FirmwareLift in
def main (arguments : List String) : IO UInt32 := do
  match CommandLine.execute (← readNamed arguments) arguments with
  | .refuse error =>
    IO.eprintln s!"error: {error.message}"
    return 2
  | .fail failure => report failure
  | .print text =>
    IO.print text
    return 0
  | .save path text => save path text
