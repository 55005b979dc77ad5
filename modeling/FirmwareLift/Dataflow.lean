import FirmwareLift.FlowGraph.Basic
import FirmwareLift.Iteration
import FirmwareLift.OrderedMap
import FirmwareLift.Text

/-!
# Dataflow analysis

The analyses of one graph: types, definitions that reach a block, and registers that are live before
it. Both kinds of flow sets are fixed points of passes over the blocks.
-/

namespace FirmwareLift

/-! ## Register types

A coarse C type for every register of a graph, found by one scan over its instructions. Strong rules
replace a type; a branch only makes a register without a type a truth value. -/

inductive RegisterType where
  | int
  | float
  | byte
  | word
  | wordPointer
  | bool
  | pin
deriving DecidableEq, Repr

def RegisterType.text : RegisterType → String
  | int => "int"
  | float => "float"
  | byte => "uint8_t"
  | word => "uint32_t"
  | wordPointer => "uint32_t*"
  | bool => "bool"
  | pin => "gpio_num_t"

abbrev TypeMap := OrderedMap String RegisterType

namespace Instruction

variable (insn : Instruction)

/-- The types that the operation gives to its first and second operand. -/
def operandTypes : List RegisterType :=
  match insn.mnemonic with
  | "add" | "sub" | "and" | "or" | "xor" | "mull" | "sll" | "srl" | "neg" | "mov" | "movi" | "addi"
  | "slli" | "srli" | "l32r" => [.int]
  | "add.s" | "sub.s" | "mul.s" | "div.s" => [.float]
  | "l8ui" | "s8i" => [.byte]
  | "l32i" | "s32i" => [.word, .wordPointer]
  | _ => []

def commentHas (part : String) : Bool :=
  insn.comment.any fun comment => Text.contains part.toList comment.toList

/-- The operand that holds a pin: the first argument of a GPIO call, else the first operand. -/
def pin? : Option Operand :=
  if insn.commentHas "GPIO" then
    if insn.isCall then insn.argumentRegister? 0 else insn.operands.head?
  else none

/-- The types that strong rules give, in the order in which they are given. -/
def strongTypes : List (Operand × RegisterType) :=
  let operation := insn.operands.zip insn.operandTypes
  let pin := insn.pin?.toList.map fun pin => (pin, RegisterType.pin)
  (operation ++ pin).filter fun entry => Operand.isRegister entry.1

end Instruction

namespace TypeMap

def setAll (types : TypeMap) (entries : List (Operand × RegisterType)) : TypeMap :=
  entries.foldl (fun types entry => types.insert entry.1 entry.2) types

/-- Gives a type to those of the registers that have none. -/
def setNew (types : TypeMap) (type : RegisterType) (registers : List Operand) : TypeMap :=
  registers.foldl (fun types register => types.insertIfNew register type) types

/-- The types after an instruction: those of its operation or branch, then that of a pin. -/
def step (types : TypeMap) (insn : Instruction) : TypeMap :=
  (types.setNew .bool (if insn.isBranch then insn.used else [])).setAll insn.strongTypes

end TypeMap

/-- The types of all registers of a graph; a register without any other type is an `int`. -/
def FlowGraph.inferTypes (g : FlowGraph) : TypeMap :=
  (g.instructions.foldl TypeMap.step .empty).setNew .int
    (g.instructions.flatMap fun insn => insn.operands.filter Operand.isRegister)

/-! ## Registers of a block

Which registers a block defines, and which it uses before it defines them. -/

namespace Block

variable (b : Block)

def definitions : RegisterSet :=
  .ofList (b.instructions.filterMap Instruction.defined?)

/-- The registers that are used by an instruction before any instruction defines them. -/
def exposedUses (instructions : List Instruction) : RegisterSet :=
  match instructions with
  | [] => .empty
  | insn :: rest =>
    ((exposedUses rest).filter fun r => insn.defined? ≠ some r).insertAll insn.used

def uses : RegisterSet :=
  exposedUses b.instructions

end Block

namespace FlowSets

def ofCount (count : Nat) : FlowSets where
  before := List.replicate count .empty
  behind := List.replicate count .empty

def beforeBlock (s : FlowSets) (id : BlockId) : RegisterSet :=
  s.before[id]?.getD .empty

def behindBlock (s : FlowSets) (id : BlockId) : RegisterSet :=
  s.behind[id]?.getD .empty

def set (s : FlowSets) (id : BlockId) (before behind : RegisterSet) : FlowSets where
  before := s.before.set id before
  behind := s.behind.set id behind

end FlowSets

def unionAll (sets : List RegisterSet) : RegisterSet :=
  sets.foldl .union .empty

/-- More passes than this cannot each add an operand of the graph to one of its sets. -/
def FlowGraph.passLimit (g : FlowGraph) : Nat :=
  2 * g.count * (g.instructions.flatMap (·.operands)).length + 1

/-! ## Reaching definitions

Before a block, the definitions that its predecessors let through; behind it, those and its own.
Definitions are told apart by register only, so a block replaces what it defines. -/

namespace FlowGraph

variable (g : FlowGraph)

def reachBlock (s : FlowSets) (b : Block) : FlowSets :=
  let before := unionAll (b.predecessors.map s.behindBlock)
  s.set b.id before ((before.diff b.definitions).union b.definitions)

/-- Visits the blocks in order, each with what the visits before it found. -/
def reachingPass (s : FlowSets) : FlowSets :=
  g.blocks.foldl reachBlock s

/-- Continues from the given sets; returns the number of passes beside the final sets. -/
def solveReaching (s : FlowSets) : Nat × FlowSets :=
  settle g.reachingPass g.passLimit s

/-! ## Live registers

Behind a block, the registers that a successor may read; before it, those that it does not define
and those that it reads first. -/

def liveBlock (s : FlowSets) (b : Block) : FlowSets :=
  let behind := unionAll (b.successors.map s.beforeBlock)
  s.set b.id ((behind.diff b.definitions).union b.uses) behind

/-- Visits the blocks in reverse order, each with what the visits before it found. -/
def livePass (s : FlowSets) : FlowSets :=
  g.blocks.reverse.foldl liveBlock s

/-- Continues from the given sets; returns the number of passes beside the final sets. -/
def solveLive (s : FlowSets) : Nat × FlowSets :=
  settle g.livePass g.passLimit s

end FlowGraph

/-! ## All analyses

The analyses of one graph side by side. Each keeps its sets between runs, so that a run on a solved
graph is a single pass. -/

structure Dataflow where
  reaching : FlowSets
  live : FlowSets
  types : TypeMap

namespace Dataflow

def start (g : FlowGraph) : Dataflow where
  reaching := .ofCount g.count
  live := .ofCount g.count
  types := .empty

variable (d : Dataflow) (g : FlowGraph)

def runReaching : Nat × Dataflow :=
  let (passes, sets) := g.solveReaching d.reaching
  (passes, { d with reaching := sets })

def runLive : Nat × Dataflow :=
  let (passes, sets) := g.solveLive d.live
  (passes, { d with live := sets })

def runTypes : Dataflow :=
  { d with types := g.inferTypes }

end Dataflow

/-- The graph with its flow sets, computed anew, and the types of its registers. -/
def FlowGraph.analyze (g : FlowGraph) : FlowGraph × TypeMap :=
  let start := Dataflow.start g
  let reaching := (start.runReaching g).2.reaching
  let live := (start.runLive g).2.live
  ({ g with reaching, live }, g.inferTypes)

end FirmwareLift
