import FirmwareLift.FlowGraph.Loops
import FirmwareLift.Proofs.FlowGraph.Refinement

/-!
# Instructions that are rewritten

What the analyses of a graph find does not depend on its instructions. Building a graph does, but
only on their addresses, their kinds, and the targets that lie in the listing.
-/

namespace FirmwareLift

variable (f : Instruction → Instruction)

def Block.mapInstructions (b : Block) : Block :=
  { b with instructions := b.instructions.map f }

theorem Block.terminator?_mapInstructions (b : Block) :
    (b.mapInstructions f).terminator? = b.terminator?.map f :=
  List.getLast?_map

variable {f} in
theorem Block.isReturn_mapInstructions {b : Block}
    (h : ∀ insn ∈ b.instructions, (f insn).kind = insn.kind) :
    (b.mapInstructions f).isReturn = b.isReturn := by
  rw [isReturn, isReturn, terminator?_mapInstructions, Option.any_map]
  cases hlast : b.terminator? with
  | none => rfl
  | some last =>
      simp only [Option.any_some, Instruction.isReturn, h last (List.mem_of_getLast? hlast)]

namespace FlowGraph

/-- The graph with every instruction rewritten; what was found in it stays. -/
def mapInstructions (g : FlowGraph) : FlowGraph :=
  { g with blocks := g.blocks.map (Block.mapInstructions f) }

section

variable (g : FlowGraph)

theorem instructions_mapInstructions :
    (g.mapInstructions f).instructions = g.instructions.map f := by
  simp [instructions, mapInstructions, Block.mapInstructions, List.map_flatMap, List.flatMap_map]

theorem mapInstructions_mapInstructions (f' : Instruction → Instruction) :
    (g.mapInstructions f).mapInstructions f' = g.mapInstructions (f' ∘ f) := by
  simp [mapInstructions, Block.mapInstructions, Function.comp_def]

variable {f} in
theorem mapInstructions_congr {f' : Instruction → Instruction} {g : FlowGraph}
    (h : ∀ insn ∈ g.instructions, f insn = f' insn) :
    g.mapInstructions f = g.mapInstructions f' := by
  simp only [mapInstructions, FlowGraph.mk.injEq, and_true]
  refine List.map_congr_left fun b hb => ?_
  have hinstructions : b.instructions.map f = b.instructions.map f' :=
    List.map_congr_left fun insn hinsn => h insn (mem_instructions hb hinsn)
  rw [Block.mapInstructions, Block.mapInstructions, hinstructions]

@[simp] theorem count_mapInstructions : (g.mapInstructions f).count = g.count := by
  simp [count, mapInstructions]

@[simp] theorem block?_mapInstructions (id : BlockId) :
    (g.mapInstructions f).block? id = (g.block? id).map (Block.mapInstructions f) := by
  simp [block?, mapInstructions]

@[simp] theorem successors_mapInstructions : (g.mapInstructions f).successors = g.successors := by
  funext id
  cases h : g.block? id <;> simp [successors, h, Block.mapInstructions]

@[simp] theorem predecessors_mapInstructions :
    (g.mapInstructions f).predecessors = g.predecessors := by
  funext id
  cases h : g.block? id <;> simp [predecessors, h, Block.mapInstructions]

@[simp] theorem startOf?_mapInstructions (id : BlockId) :
    (g.mapInstructions f).startOf? id = g.startOf? id := by
  simp [startOf?, Function.comp_def, Block.mapInstructions]

@[simp] theorem blockAt?_mapInstructions : (g.mapInstructions f).blockAt? = g.blockAt? := by
  funext a
  rw [blockAt?, mapInstructions, ← List.map_reverse, List.find?_map, Option.map_map]
  rfl

/-! ## Dominators and loops -/

@[simp] theorem reachableFrom_mapInstructions (start : BlockId) :
    (g.mapInstructions f).reachableFrom start = g.reachableFrom start := by
  simp [reachableFrom]

theorem dominatorPass_mapInstructions (reachable refined : OrderedSet BlockId) :
    (g.mapInstructions f).dominatorPass reachable refined = g.dominatorPass reachable refined := by
  funext dominators
  simp [dominatorPass, dominatorsFromPredecessors]

@[simp] theorem solveDominators_mapInstructions :
    (g.mapInstructions f).solveDominators = g.solveDominators := by
  have hentry : (g.mapInstructions f).entry = g.entry := rfl
  simp only [solveDominators, hentry, refinedBlocks, initialDominators,
    dominatorPass_mapInstructions, reachableFrom_mapInstructions, count_mapInstructions]
  rfl

theorem computeDominators_mapInstructions :
    (g.mapInstructions f).computeDominators =
      (g.computeDominators.1, g.computeDominators.2.mapInstructions f) := by
  rw [computeDominators, solveDominators_mapInstructions]
  rfl

theorem findLoops_mapInstructions (heuristic : LoopHeuristic) :
    (g.mapInstructions f).findLoops heuristic = g.findLoops heuristic := by
  have hedge : ∀ b : Block, (g.mapInstructions f).isBackEdge heuristic (b.mapInstructions f) =
      g.isBackEdge heuristic b := by
    intro b
    funext header
    cases heuristic with
    | dominance => rfl
    | addressOrder =>
        simp only [isBackEdge, startOf?_mapInstructions]
        rfl
  have hbody : (g.mapInstructions f).loopBody = g.loopBody := by
    funext header tail
    simp [loopBody]
  have hblocks : (g.mapInstructions f).blocks = g.blocks.map (Block.mapInstructions f) := rfl
  simp only [findLoops, hblocks, List.flatMap_map, hedge, hbody]
  rfl

theorem ensureDominators_mapInstructions :
    (g.mapInstructions f).ensureDominators = g.ensureDominators.mapInstructions f := by
  have hdominators : (g.mapInstructions f).dominators = g.dominators := rfl
  rw [ensureDominators, ensureDominators, hdominators, count_mapInstructions,
    computeDominators_mapInstructions]
  split <;> rfl

theorem detectLoops_mapInstructions (heuristic : LoopHeuristic) :
    (g.mapInstructions f).detectLoops heuristic = (g.detectLoops heuristic).mapInstructions f := by
  have hloops : ∀ g : FlowGraph,
      ({ g.mapInstructions f with
          loops := (g.mapInstructions f).findLoops heuristic } : FlowGraph) =
        ({ g with loops := g.findLoops heuristic } : FlowGraph).mapInstructions f := by
    intro g
    rw [findLoops_mapInstructions]
    rfl
  cases heuristic with
  | dominance =>
      have hensured := hloops g.ensureDominators
      rw [← ensureDominators_mapInstructions] at hensured
      exact hensured
  | addressOrder => exact hloops g

/-! ## Edges -/

theorem addEdge_mapInstructions (source target : BlockId) :
    (g.mapInstructions f).addEdge source target = (g.addEdge source target).mapInstructions f := by
  rw [addEdge, addEdge, successors_mapInstructions]
  split
  · rfl
  · simp only [mapInstructions, FlowGraph.mk.injEq, and_true]
    apply List.ext_getElem?
    intro i
    simp only [List.getElem?_modify, List.getElem?_map]
    cases g.blocks[i]? with
    | none => rfl
    | some b =>
        simp only [Option.map_eq_map, Option.map_some]
        split <;> split <;> rfl

theorem addEdges_mapInstructions (edges : List (BlockId × BlockId)) :
    edges.foldl (fun g edge => g.addEdge edge.1 edge.2) (g.mapInstructions f) =
      (edges.foldl (fun g edge => g.addEdge edge.1 edge.2) g).mapInstructions f := by
  induction edges generalizing g with
  | nil => rfl
  | cons edge edges ih =>
      rw [List.foldl_cons, List.foldl_cons, addEdge_mapInstructions, ih]

end

/-! ## Graphs of listings -/

variable {f} {g : FlowGraph} {listing : List Instruction}

theorem segments_map (leads : Instruction → Bool) (listing : List Instruction) :
    segments leads (listing.map f) =
      (segments (leads ∘ f) listing).map fun s => (f s.1, s.2.map f) := by
  induction listing with
  | nil => rfl
  | cons insn rest ih =>
      simp only [List.map_cons, segments, ih]
      cases segments (leads ∘ f) rest with
      | nil => rfl
      | cons s later =>
          simp only [List.map_cons, Function.comp_apply]
          split <;> rfl

theorem segments_congr {leads leads' : Instruction → Bool}
    (h : ∀ insn ∈ listing, leads insn = leads' insn) :
    segments leads listing = segments leads' listing := by
  induction listing with
  | nil => rfl
  | cons insn rest ih =>
      obtain ⟨-, hrest⟩ := List.forall_mem_cons.1 h
      have hhead := head?_segments leads rest
      simp only [segments, ← ih hrest]
      cases hsegments : segments leads rest with
      | nil => rfl
      | cons s later =>
          rw [hsegments] at hhead
          have hmem : s.1 ∈ rest := List.mem_of_head? hhead.symm
          simp only [hrest s.1 hmem]

/-- A rewriting that keeps what building a graph of the listing looks at. -/
structure Keeps (f : Instruction → Instruction) (listing : List Instruction) : Prop where
  address : ∀ insn ∈ listing, (f insn).address = insn.address
  kind : ∀ insn ∈ listing, (f insn).kind = insn.kind
  target : ∀ insn ∈ listing, ∀ a ∈ listing.map (·.address),
    (f insn).target? = some a ↔ insn.target? = some a

namespace Keeps

variable (h : Keeps f listing)

include h

theorem isTransfer {insn : Instruction} (hinsn : insn ∈ listing) :
    (f insn).isTransfer = insn.isTransfer := by
  simp only [Instruction.isTransfer, Instruction.isControlFlow, Instruction.isBranch,
    Instruction.isJump, Instruction.isReturn, Instruction.isCall, h.kind insn hinsn]

theorem isBranch_or_isJump {insn : Instruction} (hinsn : insn ∈ listing) :
    ((f insn).isBranch || (f insn).isJump) = (insn.isBranch || insn.isJump) := by
  simp only [Instruction.isBranch, Instruction.isJump, h.kind insn hinsn]

theorem mem_leaders_map {a : Address} (ha : a ∈ listing.map (·.address)) :
    a ∈ leaders (listing.map f) ↔ a ∈ leaders listing := by
  rw [mem_leaders, mem_leaders]
  refine or_congr ?_ ?_
  · cases listing with
    | nil => simp
    | cons first rest => simp [h.address first List.mem_cons_self]
  · simp only [List.mem_map, exists_exists_and_eq_and]
    refine exists_congr fun insn => and_congr_right fun hinsn => ?_
    rw [h.isTransfer hinsn, h.isBranch_or_isJump hinsn, h.target insn hinsn a ha, Instruction.next,
      Instruction.next, h.address insn hinsn]

theorem ofSegment_map {s : Instruction × List Instruction}
    (hs : ∀ insn ∈ segmentInstructions s, insn ∈ listing) (id : BlockId) :
    Block.ofSegment (f s.1, s.2.map f) id = (Block.ofSegment s id).mapInstructions f := by
  have hlast : ((s.2.map f).getLast?.getD (f s.1)).address = (s.2.getLast?.getD s.1).address := by
    rw [List.getLast?_map]
    cases hlast : s.2.getLast? with
    | none => exact h.address s.1 (hs s.1 List.mem_cons_self)
    | some last =>
        exact h.address last (hs last (List.mem_cons_of_mem _ (List.mem_of_getLast? hlast)))
  simp only [Block.ofSegment, Block.mapInstructions, hlast,
    h.address s.1 (hs s.1 List.mem_cons_self)]
  rfl

theorem ofSegments_map :
    ofSegments (leaders (listing.map f)) (listing.map f) =
      (ofSegments (leaders listing) listing).mapInstructions f := by
  have hleads : ∀ insn ∈ listing, ((fun insn : Instruction =>
      decide (insn.address ∈ leaders (listing.map f))) ∘ f) insn =
        decide (insn.address ∈ leaders listing) := by
    intro insn hinsn
    have haddress : insn.address ∈ listing.map (·.address) := List.mem_map_of_mem hinsn
    simp only [Function.comp_apply, h.address insn hinsn, h.mem_leaders_map haddress]
  simp only [ofSegments, mapInstructions, segments_map, segments_congr hleads, List.zipIdx_map,
    List.map_map, FlowGraph.mk.injEq, and_true]
  refine List.map_congr_left fun entry hentry => ?_
  have hsegment := infix_of_mem_segments (List.fst_mem_of_mem_zipIdx hentry)
  exact h.ofSegment_map (fun _ hinsn => hsegment.subset hinsn) entry.2

theorem follow_map {g : FlowGraph} {b : Block} (hb : ∀ insn ∈ b.instructions, insn ∈ listing)
    (hstarts : ∀ a ∈ g.starts, a ∈ listing.map (·.address)) :
    (g.mapInstructions f).follow (b.mapInstructions f) = g.follow b := by
  rw [follow, follow, Block.terminator?_mapInstructions, blockAt?_mapInstructions]
  cases hlast : b.terminator? with
  | none => rfl
  | some last =>
      have hmem : last ∈ listing := hb last (List.mem_of_getLast? hlast)
      have htarget : (f last).target?.bind g.blockAt? = last.target?.bind g.blockAt? := by
        ext id
        simp only [Option.bind_eq_some_iff]
        refine exists_congr fun a => and_congr_left fun ha => h.target last hmem a (hstarts a ?_)
        by_contra hnot
        rw [blockAt?_eq_none.2 hnot] at ha
        cases ha
      simp only [Option.map_some, htarget, h.kind last hmem]
      rfl

theorem edges_map :
    ((ofSegments (leaders listing) listing).mapInstructions f).edges =
      (ofSegments (leaders listing) listing).edges := by
  have hmem : ∀ b ∈ (ofSegments (leaders listing) listing).blocks,
      ∀ insn ∈ b.instructions, insn ∈ listing := by
    intro b hb insn hinsn
    obtain ⟨entry, hentry, rfl⟩ := List.mem_map.1 hb
    exact (infix_of_mem_segments (List.fst_mem_of_mem_zipIdx hentry)).subset hinsn
  have hstarts : ∀ a ∈ (ofSegments (leaders listing) listing).starts,
      a ∈ listing.map (·.address) := by
    intro a ha
    obtain ⟨b, hb, rfl⟩ := List.mem_map.1 ha
    obtain ⟨entry, -, rfl⟩ := List.mem_map.1 hb
    exact List.mem_map_of_mem (hmem _ hb entry.1.1 List.mem_cons_self)
  rw [edges, edges]
  simp only [mapInstructions, List.flatMap_map]
  exact List.flatMap_congr fun b hb => congrArg (List.map _) (h.follow_map (hmem b hb) hstarts)

theorem close_map {g : FlowGraph} (hg : ∀ b ∈ g.blocks, ∀ insn ∈ b.instructions, insn ∈ listing) :
    (g.mapInstructions f).close = g.close.mapInstructions f := by
  have hexits : ((g.blocks.map (Block.mapInstructions f)).filter fun b =>
      b.successors.isEmpty || b.isReturn).map (·.id) =
        (g.blocks.filter fun b => b.successors.isEmpty || b.isReturn).map (·.id) := by
    rw [List.filter_map, List.map_map]
    refine congrArg (List.map _) (List.filter_congr fun b hb => ?_)
    have hreturn := Block.isReturn_mapInstructions fun insn hinsn => h.kind insn (hg b hb insn hinsn)
    simp only [Function.comp_apply, hreturn]
    rfl
  simp only [close, mapInstructions, isEmpty, List.isEmpty_map, hexits]
  rfl

/-- Building the graph of a listing commutes with rewriting its instructions. -/
theorem ofListing_map : ofListing (listing.map f) = (ofListing listing).mapInstructions f := by
  have hlink : (ofSegments (leaders (listing.map f)) (listing.map f)).link =
      (ofSegments (leaders listing) listing).link.mapInstructions f := by
    rw [link, h.ofSegments_map, h.edges_map, addEdges_mapInstructions]
    rfl
  rw [ofListing, hlink]
  exact h.close_map fun b hb insn hinsn => mem_listing_of_mem_blocks hb hinsn

end Keeps

end FlowGraph

end FirmwareLift
