import FirmwareLift.Descriptor.Basic
import FirmwareLift.FlowGraph.Basic
import FirmwareLift.Iteration

/-!
# Dominators and loops

Which blocks lie on every way to a block, and the loops that back edges make.
-/

namespace FirmwareLift.FlowGraph

variable (g : FlowGraph)

/-! ## Dominators

The dominators of each block, as the fixed point of passes over the blocks in order. A pass works in
place, so a block already sees what the pass found for the blocks before it. -/

def reachableFrom (start : BlockId) : OrderedSet BlockId :=
  ((Marks.ofCount g.count).flood g.successors [start]).ids

/-- The blocks whose dominators passes find: the reachable ones other than the entry. -/
def refinedBlocks (entry : BlockId) : OrderedSet BlockId :=
  (g.reachableFrom entry).filter (· ≠ entry)

/-- A refined block is first taken to be dominated by all blocks, any other one by itself only. -/
def initialDominators (refined : OrderedSet BlockId) : List (OrderedSet BlockId) :=
  let all := .ofList (List.range g.count)
  (List.range g.count).map fun id => if id ∈ refined then all else .singleton id

/-- The common members of the given sets, or none if no set is given. -/
def interAll : List (OrderedSet BlockId) → OrderedSet BlockId
  | [] => .empty
  | s :: rest => rest.foldl .inter s

/-- What dominates all reachable predecessors of a block, and the block itself. -/
def dominatorsFromPredecessors (reachable : OrderedSet BlockId)
    (dominators : List (OrderedSet BlockId)) (id : BlockId) : OrderedSet BlockId :=
  let sources := (g.predecessors id).filter fun p => p ∈ reachable
  (interAll (sources.map fun p => dominators[p]?.getD .empty)).insert id

/-- Visits the refined blocks in order, each with what the visits before it found. -/
def dominatorPass (reachable refined : OrderedSet BlockId)
    (dominators : List (OrderedSet BlockId)) : List (OrderedSet BlockId) :=
  refined.toList.foldl
    (fun dominators id => dominators.set id (g.dominatorsFromPredecessors reachable dominators id))
    dominators

/--
The number of passes and the dominators of each block. A pass that changes anything takes a block
out of a set, so there are never more passes than the limit admits.
-/
def solveDominators : Nat × List (OrderedSet BlockId) :=
  match g.entry with
  | none => (0, [])
  | some entry =>
    let refined := g.refinedBlocks entry
    settle (g.dominatorPass (g.reachableFrom entry) refined) (g.count * g.count + 1)
      (g.initialDominators refined)

/-- Computes the dominators anew; returns the number of passes beside the graph. -/
def computeDominators : Nat × FlowGraph :=
  (g.solveDominators.1, { g with dominators := g.solveDominators.2 })

/-- Whether `a` dominates `b`, by the dominators that were last computed. -/
def dominates (a b : BlockId) : Bool :=
  g.dominators[b]?.any fun set => a ∈ set

/-! ## Loops

Every back edge makes a loop: its header, its tail, and what reaches the tail without passing the
header. -/

def loopBody (header tail : BlockId) : OrderedSet BlockId :=
  (((Marks.ofCount g.count).mark header).flood g.predecessors [tail]).ids

def startOf? (id : BlockId) : Option Address :=
  (g.block? id).map (·.start)

/-- Whether an edge is a back edge; the dominators are those that were last computed. -/
def isBackEdge (heuristic : LoopHeuristic) (tail : Block) (header : BlockId) : Bool :=
  match heuristic with
  | .dominance => g.dominates header tail.id
  | .addressOrder => (g.startOf? header).any fun start => start ≤ tail.start

/-- The loops of the graph, in the order of their tails and of the successors of each tail. -/
def findLoops (heuristic : LoopHeuristic) : List Loop :=
  g.blocks.flatMap fun b =>
    (b.successors.filter (g.isBackEdge heuristic b)).map fun header =>
      { header, tail := b.id, body := g.loopBody header b.id }

/-- The graph with one set of dominators for each block, which are kept if they are there. -/
def ensureDominators : FlowGraph :=
  if g.dominators.length = g.count then g else g.computeDominators.2

def detectLoops (heuristic : LoopHeuristic) : FlowGraph :=
  let g := if heuristic = .dominance then g.ensureDominators else g
  { g with loops := g.findLoops heuristic }

def loopHeaders : OrderedSet BlockId :=
  .ofList (g.loops.map (·.header))

end FirmwareLift.FlowGraph
