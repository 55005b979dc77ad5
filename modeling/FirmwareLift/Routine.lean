import FirmwareLift.Dataflow
import FirmwareLift.FlowGraph.Build
import FirmwareLift.FlowGraph.Loops
import FirmwareLift.Image

/-!
# Routines

A function of the firmware: its range of addresses, its flow graph, and what is inferred about it.
-/

namespace FirmwareLift

/-- A register that holds a parameter or a local value. -/
structure Variable where
  name : String
  type : String
deriving DecidableEq

structure Routine where
  start : Address
  /-- The first address behind the routine. -/
  stop : Address
  name : String
  returnType : String := "void"
  parameters : List Variable := []
  locals : List Variable := []
  graph : FlowGraph := {}
  pseudocode : String := ""
  isInterruptHandler : Bool := false
  isTask : Bool := false
  taskPriority : Option Word := none
deriving DecidableEq

namespace Routine

def argumentRegisters : List String := ["a2", "a3", "a4", "a5", "a6", "a7"]

/-- The return address and the stack pointer, which are not declared. -/
def reservedRegisters : List String := ["a0", "a1"]

variable (f : Routine)

def contains (address : Address) : Bool :=
  f.start ≤ address && address < f.stop

/-- A register as a variable; one without a type is an `int`. -/
def variableOf (types : TypeMap) (register : String) : Variable where
  name := register
  type := ((types.get? register).getD .int).text

def liveAtEntry (g : FlowGraph) : RegisterSet :=
  (g.entry.map g.live.beforeBlock).getD .empty

/-- Whether a definition of `a2` reaches a return. -/
def returnsValue (g : FlowGraph) : Bool :=
  g.exits.any fun exit =>
    (g.block? exit).any Block.isReturn && "a2" ∈ g.reaching.behindBlock exit

/--
Runs the dataflow analyses and derives the signature: parameters are the argument registers that
are live at the entry, and every other register that is not reserved is a local.
-/
def inferSignature : Routine :=
  let (graph, types) := f.graph.analyze
  let parameters := (argumentRegisters.filter (· ∈ liveAtEntry graph)).map (variableOf types)
  let locals := (types.keys.filter fun register =>
    register ∉ reservedRegisters && register ∉ parameters.map (·.name)).map (variableOf types)
  { f with
    graph, parameters, locals
    returnType := if returnsValue graph then (variableOf types "a2").type else "void" }

/-- Decodes the range of the routine and runs all analyses on it. -/
def analyze (f : Routine) (image : Image) (symbols : SymbolTable) (heuristic : LoopHeuristic) :
    Routine :=
  let graph := FlowGraph.ofListing (image.listing symbols f.start f.stop)
  inferSignature { f with graph := graph.computeDominators.2.detectLoops heuristic }

end Routine

end FirmwareLift
