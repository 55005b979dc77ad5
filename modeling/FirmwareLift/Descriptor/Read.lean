import FirmwareLift.Descriptor.Basic
import FirmwareLift.Json.Parser

/-!
# Reading and writing descriptors

A descriptor as JSON. A field that is not given takes its value from the ESP32 descriptor.
-/

namespace FirmwareLift

open Json (Record)

def LoopHeuristic.name : LoopHeuristic → String
  | dominance => "dominance"
  | addressOrder => "address_order"

def LoopHeuristic.ofName? : String → Option LoopHeuristic
  | "dominance" => some .dominance
  | "address_order" => some .addressOrder
  | _ => none

/-- A heuristic is its name, or an object whose only field has that name and the value `null`. -/
def LoopHeuristic.ofJson? : Json → Option LoopHeuristic
  | .string (some name) => ofName? name
  | .object [(some name, .null)] => ofName? name
  | _ => none

def LoopHeuristic.toJson (heuristic : LoopHeuristic) : Json :=
  .ofString heuristic.name

def ApiFamily.fieldNames : List String := ["prefix", "class"]

def ApiFamily.ofJson? (json : Json) : Option ApiFamily := do
  let record ← json.record? fieldNames
  return {
    stem := ← record.get? "prefix" Json.text?
    family := ← record.get? "class" Json.text? }

def ApiFamily.toJson (f : ApiFamily) : Json :=
  .ofFields [("prefix", .ofString f.stem), ("class", .ofString f.family)]

def Peripheral.fieldNames : List String := ["name", "base", "size"]

def Peripheral.ofJson? (json : Json) : Option Peripheral := do
  let record ← json.record? fieldNames
  return {
    name := ← record.get? "name" Json.text?
    base := ← record.get? "base" Json.word?
    size := ← record.get? "size" Json.word? }

def Peripheral.toJson (p : Peripheral) : Json :=
  .ofFields [("name", .ofString p.name), ("base", .natural p.base.toNat),
    ("size", .natural p.size.toNat)]

def AnalysisOptions.fieldNames : List String :=
  ["max_functions", "last_function_window", "loop_heuristic", "min_string_length"]

def AnalysisOptions.ofJson? (json : Json) : Option AnalysisOptions := do
  let record ← json.record? fieldNames
  let initial : AnalysisOptions := {}
  return {
    maxFunctions := ← record.getD "max_functions" Json.word64? initial.maxFunctions
    lastFunctionWindow := ←
      record.getD "last_function_window" Json.word? initial.lastFunctionWindow
    loopHeuristic := ←
      record.getD "loop_heuristic" LoopHeuristic.ofJson? initial.loopHeuristic
    minStringLength := ← record.getD "min_string_length" Json.word64? initial.minStringLength }

def AnalysisOptions.toJson (a : AnalysisOptions) : Json :=
  .ofFields [("max_functions", .natural a.maxFunctions.toNat),
    ("last_function_window", .natural a.lastFunctionWindow.toNat),
    ("loop_heuristic", a.loopHeuristic.toJson),
    ("min_string_length", .natural a.minStringLength.toNat)]

namespace Descriptor

def fieldNames : List String :=
  ["name", "flash_base", "flash_size", "ram_base", "ram_size", "entry_point", "known_functions",
    "api_prefixes", "peripherals", "analysis"]

/-- The descriptor of a JSON value, whether or not it is a valid one. -/
def ofJson? (json : Json) : Option Descriptor := do
  let record ← json.record? fieldNames
  return {
    name := ← record.getD "name" Json.text? esp32.name
    flashBase := ← record.getD "flash_base" Json.word? esp32.flashBase
    flashSize := ← record.getD "flash_size" Json.word? esp32.flashSize
    ramBase := ← record.getD "ram_base" Json.word? esp32.ramBase
    ramSize := ← record.getD "ram_size" Json.word? esp32.ramSize
    entryPoint := ← record.getD "entry_point" (Json.nullable? Json.word?) esp32.entryPoint
    knownFunctions := ← record.getD "known_functions"
      (fun json => (json.entries? Json.word?).map OrderedMap.ofList) esp32.knownFunctions
    apiFamilies := ← record.getD "api_prefixes" (Json.items? ApiFamily.ofJson?) esp32.apiFamilies
    peripherals := ← record.getD "peripherals" (Json.items? Peripheral.ofJson?) esp32.peripherals
    analysis := ← record.getD "analysis" AnalysisOptions.ofJson? esp32.analysis }

def toJson (d : Descriptor) : Json :=
  .ofFields [("name", .ofString d.name),
    ("flash_base", .natural d.flashBase.toNat),
    ("flash_size", .natural d.flashSize.toNat),
    ("ram_base", .natural d.ramBase.toNat),
    ("ram_size", .natural d.ramSize.toNat),
    ("entry_point", (d.entryPoint.map fun address => .natural address.toNat).getD .null),
    ("known_functions",
      .ofFields (d.knownFunctions.toList.map fun entry => (entry.1, .natural entry.2.toNat))),
    ("api_prefixes", .array (d.apiFamilies.map ApiFamily.toJson)),
    ("peripherals", .array (d.peripherals.map Peripheral.toJson)),
    ("analysis", d.analysis.toJson)]

/-- The valid descriptor that a JSON value gives. -/
def read (json : Json) : Except DescriptorError Descriptor :=
  match ofJson? json with
  | none => .error .unreadable
  | some descriptor => descriptor.validate

/-- The valid descriptor that a text gives. -/
def parse (text : String) : Except DescriptorError Descriptor :=
  match Json.parse? text with
  | none => .error .unreadable
  | some json => read json

end Descriptor

end FirmwareLift
