import FirmwareLift.Json.Basic
import FirmwareLift.Routine
import FirmwareLift.Text

/-!
# Outputs

The formats in which routines can be written: a listing of their pseudocode, annotated assembly, a
summary in JSON and a table in CSV.
-/

namespace FirmwareLift

open Text.Numeral (hex8)

/-! ## Pseudocode listing

A header, and the pseudocode of every routine behind an empty line. -/

def programVersion : String := "fwdecomp 0.1.0"

/-- A routine without pseudocode leaves a note. -/
def Routine.listing (f : Routine) : String :=
  if f.pseudocode.isEmpty then s!"\n// {f.name} @ {hex8 f.start}: not decompiled\n"
  else "\n" ++ f.pseudocode

def pseudocodeListing (target : String) (routines : List Routine) : String :=
  String.join <|
    [s!"// Generated by {programVersion}\n", s!"// Target: {target}\n",
      s!"// Functions: {routines.length}\n"] ++ routines.map Routine.listing

/-! ## Annotated assembly

A heading for every routine and a line for every instruction, in columns. -/

namespace Instruction

variable (insn : Instruction)

/-- The address, the mnemonic and the operands, in columns. -/
def columns : List Char :=
  ' ' :: ' ' :: (hex8 insn.address).toList ++ [':', ' '] ++ Text.padEnd 8 insn.mnemonic.toList ++
    ' ' :: Text.padEnd 24 insn.operandText.toList

/-- The columns and the comment; without a comment no blank ends the line. -/
def assemblyLine : String :=
  match insn.comment with
  | some comment => s!"{String.ofList insn.columns} ; {comment}\n"
  | none => String.ofList (Text.trimEnd insn.columns) ++ "\n"

end Instruction

def Routine.assembly (f : Routine) : String :=
  s!"{f.name}:  ; {hex8 f.start}-{hex8 f.stop}\n" ++
    String.join (f.graph.instructions.map Instruction.assemblyLine) ++ "\n"

def annotatedAssembly (routines : List Routine) : String :=
  String.join (routines.map Routine.assembly)

/-! ## Summary

The routines as JSON: signature, role, shape of the flow graph and pseudocode. -/

def Variable.toJson (v : Variable) : Json :=
  .ofFields [("name", .ofString v.name), ("type", .ofString v.type)]

/-- A priority that is not known is left out. -/
def Routine.toJson (f : Routine) : Json :=
  .ofFields <|
    [("name", .ofString f.name), ("start", .ofString (hex8 f.start)),
      ("end", .ofString (hex8 f.stop)), ("return_type", .ofString f.returnType),
      ("parameters", .array (f.parameters.map Variable.toJson)),
      ("local_variables", .array (f.locals.map Variable.toJson)),
      ("is_isr", .bool f.isInterruptHandler), ("is_task", .bool f.isTask)] ++
    (f.taskPriority.map fun priority => ("task_priority", .natural priority.toNat)).toList ++
    [("blocks", .natural f.graph.count), ("edges", .natural f.graph.edgeCount),
      ("loops", .natural f.graph.loops.length), ("pseudo_code", .ofString f.pseudocode)]

def summary (routines : List Routine) : String :=
  (Json.ofFields [("functions", .array (routines.map Routine.toJson))]).render

/-! ## Table

All instructions as CSV: a record of column names, and a record for every instruction. -/

abbrev CsvRecord := List String

/-- Commas separate the fields and a line feed ends the record. -/
def CsvRecord.render (record : CsvRecord) : List Char :=
  [','].intercalate (record.map fun field => Text.csvField field.toList) ++ ['\n']

namespace Table

def columnNames : CsvRecord :=
  ["function", "address", "opcode", "mnemonic", "operands", "comment"]

def record (routine : String) (insn : Instruction) : CsvRecord :=
  [routine, hex8 insn.address, hex8 insn.word, insn.mnemonic, insn.operandText,
    insn.comment.getD ""]

def records (routines : List Routine) : List CsvRecord :=
  columnNames :: routines.flatMap fun f => f.graph.instructions.map (record f.name)

def render (routines : List Routine) : String :=
  String.ofList ((records routines).flatMap CsvRecord.render)

end Table

/-! ## Output formats

The formats in which routines can be written, and their names. -/

inductive OutputFormat where
  | pseudo
  | assembly
  | json
  | csv
deriving DecidableEq, Repr

namespace OutputFormat

def name : OutputFormat → String
  | pseudo => "pseudo"
  | assembly => "asm"
  | json => "json"
  | csv => "csv"

/-- The format of that very name. -/
def ofName? : String → Option OutputFormat
  | "pseudo" => some pseudo
  | "asm" => some assembly
  | "json" => some json
  | "csv" => some csv
  | _ => none

/-- Two formats have a second name. -/
def ofAlias? : String → Option OutputFormat
  | "c" => some pseudo
  | "assembly" => some assembly
  | text => ofName? text

/-- A format by either name; the case of ASCII letters does not count. -/
def ofText? (text : String) : Option OutputFormat :=
  ofAlias? (String.ofList (text.toList.map Char.toLower))

def unknownMessage (text : String) : String :=
  s!"Unknown output format: {text}"

/-- Writes routines in a format; `target` is the name in the header of a pseudocode listing. -/
def render (target : String) (routines : List Routine) : OutputFormat → String
  | pseudo => pseudocodeListing target routines
  | assembly => annotatedAssembly routines
  | json => summary routines
  | csv => Table.render routines

end OutputFormat

end FirmwareLift
