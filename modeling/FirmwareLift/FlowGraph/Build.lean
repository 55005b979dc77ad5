import FirmwareLift.FlowGraph.Basic

/-!
# Building flow graphs

A listing is cut into blocks before every leader, and the blocks are linked by what their last
instructions do.
-/

namespace FirmwareLift

/-- The addresses that start a block: the first, those behind a transfer, and jump targets. -/
def leaders (listing : List Instruction) : OrderedSet Address :=
  .ofList <| (listing.head?.map (·.address)).toList ++ listing.flatMap fun insn =>
    (if insn.isTransfer then [insn.next] else []) ++
      (if insn.isBranch || insn.isJump then insn.target?.toList else [])

/-- Cuts a listing before each instruction that leads; a segment is its first and its others. -/
def segments (leads : Instruction → Bool) :
    List Instruction → List (Instruction × List Instruction)
  | [] => []
  | insn :: rest =>
    match segments leads rest with
    | [] => [(insn, [])]
    | (head, more) :: later =>
      if leads head then (insn, []) :: (head, more) :: later else (insn, head :: more) :: later

def segmentInstructions (segment : Instruction × List Instruction) : List Instruction :=
  segment.1 :: segment.2

/-- Cutting loses nothing and keeps the order. -/
theorem flatMap_segments (leads : Instruction → Bool) (listing : List Instruction) :
    (segments leads listing).flatMap segmentInstructions = listing := by
  induction listing with
  | nil => rfl
  | cons insn rest ih =>
    simp only [segments]
    split
    · next h => rw [h] at ih; simp_all [segmentInstructions]
    · next h =>
      rw [h] at ih
      split <;> simp_all [segmentInstructions]

def Block.ofSegment (segment : Instruction × List Instruction) (id : BlockId) : Block where
  id := id
  start := segment.1.address
  last := (segment.2.getLast?.getD segment.1).address
  instructions := segmentInstructions segment

namespace FlowGraph

/-- Cuts a listing into blocks at the given addresses; the blocks are not yet linked. -/
def ofSegments (leads : OrderedSet Address) (listing : List Instruction) : FlowGraph where
  blocks := ((segments (fun insn => insn.address ∈ leads) listing).zipIdx).map
    fun (segment, id) => .ofSegment segment id

/--
Where control may go behind a block. A return goes nowhere and a jump to its target, a branch to
its target and on. A call goes to its target if a block starts there, and otherwise on.
-/
def follow (g : FlowGraph) (b : Block) : List BlockId :=
  match b.terminator? with
  | none => []
  | some last =>
    let target := (last.target?.bind g.blockAt?).toList
    let next := (g.blockAt? b.fallThrough).toList
    match last.kind with
    | .ret => []
    | .jump => target
    | .branch => target ++ next
    | .call => if target.isEmpty then next else target
    | .store | .plain => next

def edges (g : FlowGraph) : List (BlockId × BlockId) :=
  g.blocks.flatMap fun b => (g.follow b).map fun target => (b.id, target)

def link (g : FlowGraph) : FlowGraph :=
  g.edges.foldl (fun g edge => g.addEdge edge.1 edge.2) g

/-- Records the first block as the entry, and as exits the blocks that return or lead nowhere. -/
def close (g : FlowGraph) : FlowGraph :=
  { g with
    entry := if g.isEmpty then none else some 0
    exits := (g.blocks.filter fun b => b.successors.isEmpty || b.isReturn).map (·.id) }

def ofListing (listing : List Instruction) : FlowGraph :=
  (ofSegments (leaders listing) listing).link.close

end FlowGraph

end FirmwareLift
