import FirmwareLift.Instruction
import FirmwareLift.OrderedSet

/-!
# Flow graphs

The basic blocks of a function and the edges between them, with the facts that the analyses derive.
Blocks refer to each other by their position in the graph.
-/

namespace FirmwareLift

abbrev BlockId := Nat

/-- A straight run of instructions. -/
structure Block where
  id : BlockId
  start : Address
  /-- The address of the last instruction. -/
  last : Address
  instructions : List Instruction
  successors : List BlockId := []
  predecessors : List BlockId := []
deriving DecidableEq

/-- A loop, identified by its back edge from `tail` to `header`. -/
structure Loop where
  header : BlockId
  tail : BlockId
  body : OrderedSet BlockId
deriving DecidableEq

abbrev RegisterSet := OrderedSet String

/-- The registers for which a fact holds before and behind each block, by block id. -/
structure FlowSets where
  before : List RegisterSet := []
  behind : List RegisterSet := []
deriving DecidableEq

structure FlowGraph where
  blocks : List Block := []
  entry : Option BlockId := none
  exits : List BlockId := []
  /-- The dominators of each block, by block id; empty until they are computed. -/
  dominators : List (OrderedSet BlockId) := []
  loops : List Loop := []
  reaching : FlowSets := {}
  live : FlowSets := {}
deriving DecidableEq

namespace Block

variable (b : Block)

def terminator? : Option Instruction :=
  b.instructions.getLast?

/-- The address behind the block, modulo 2^32. -/
def fallThrough : Address :=
  b.last + Instruction.width

def isReturn : Bool :=
  b.terminator?.any Instruction.isReturn

end Block

namespace FlowGraph

variable (g : FlowGraph)

def empty : FlowGraph := {}

def count : Nat := g.blocks.length

def block? (id : BlockId) : Option Block := g.blocks[id]?

def isEmpty : Bool := g.blocks.isEmpty

/-- The block that starts at an address, the last one if there are several. -/
def blockAt? (address : Address) : Option BlockId :=
  (g.blocks.reverse.find? fun b => b.start = address).map (·.id)

def successors (id : BlockId) : List BlockId :=
  (g.block? id).elim [] (·.successors)

def predecessors (id : BlockId) : List BlockId :=
  (g.block? id).elim [] (·.predecessors)

def edgeCount : Nat :=
  (g.blocks.flatMap (·.successors)).length

def instructions : List Instruction :=
  g.blocks.flatMap (·.instructions)

/-- Records an edge on both of its blocks; an edge that is there already is not added again. -/
def addEdge (source target : BlockId) : FlowGraph :=
  if target ∈ g.successors source then g
  else
    { g with
      blocks := (g.blocks.modify source fun b => { b with successors := b.successors ++ [target] })
        |>.modify target fun b => { b with predecessors := b.predecessors ++ [source] } }

end FlowGraph

end FirmwareLift
