import FirmwareLift.FlowGraph.Loops
import FirmwareLift.Proofs.FlowGraph.Reachable

/-!
# Edited graphs

What becomes of the empty graph when listings are built, edges are inserted and the analyses run, in
any order. The graph keeps the blocks of the listing that was built last, and its edges stay inside
it and are recorded on both ends.
-/

namespace FirmwareLift.FlowGraph

/--
The outcome `g` of a sequence of operations: `listing` was built last, and the dominators of `g`
belong to the edges of `analysed`. While `g` has no dominators, `analysed` has the edges of `g`.
-/
inductive Edited : (listing : List Instruction) → (analysed g : FlowGraph) → Prop where
  | empty : Edited [] .empty .empty
  | build {listing : List Instruction} {analysed g : FlowGraph} (next : List Instruction) :
      Edited listing analysed g → Edited next (ofListing next) (ofListing next)
  | addEdge {listing : List Instruction} {analysed g : FlowGraph} {source target : BlockId} :
      Edited listing analysed g → source < g.count → target < g.count →
        Edited listing (if g.dominators = [] then g.addEdge source target else analysed)
          (g.addEdge source target)
  | computeDominators {listing : List Instruction} {analysed g : FlowGraph} :
      Edited listing analysed g → Edited listing g g.computeDominators.2
  | detectLoops {listing : List Instruction} {analysed g : FlowGraph} (heuristic : LoopHeuristic) :
      Edited listing analysed g → Edited listing analysed (g.detectLoops heuristic)

/-- The edges join blocks of the graph, each once, and are recorded on both of them. -/
structure Linked (g : FlowGraph) : Prop where
  target_lt : ∀ {a b}, b ∈ g.successors a → b < g.count
  symmetric : ∀ {a b}, b ∈ g.successors a ↔ a ∈ g.predecessors b
  nodup_successors : ∀ a, (g.successors a).Nodup
  nodup_predecessors : ∀ b, (g.predecessors b).Nodup

/-- The representations of a graph agree with each other, and its blocks hold the listing. -/
structure WellFormed (listing : List Instruction) (g : FlowGraph) : Prop extends Linked g where
  id_eq : ∀ i b, g.block? i = some b → b.id = i
  start_eq : ∀ b ∈ g.blocks, b.instructions.head?.map (·.address) = some b.start
  last_eq : ∀ b ∈ g.blocks, b.instructions.getLast?.map (·.address) = some b.last
  instructions_eq : g.instructions = listing
  source_lt : ∀ {a b}, a ∈ g.predecessors b → a < g.count
  exit_lt : ∀ id ∈ g.exits, id < g.count
  entry_lt : ∀ id, g.entry = some id → id < g.count
  blockAt?_eq : ∀ a id, g.blockAt? a = some id → ∃ b, g.block? id = some b ∧ b.start = a

variable {g : FlowGraph} {listing : List Instruction} {analysed : FlowGraph}

/-! ## Edges -/

theorem Linked.lt_of_reaches {a b : BlockId} (h : g.Linked) (ha : a < g.count)
    (hreaches : g.Reaches a b) : b < g.count := by
  rcases Relation.ReflTransGen.cases_tail hreaches with rfl | ⟨c, -, hleads⟩
  · exact ha
  · exact h.target_lt hleads

theorem predecessors_addEdge {source target : BlockId} (htarget : target < g.count) (id : BlockId) :
    (g.addEdge source target).predecessors id =
      if id = target ∧ target ∉ g.successors source then g.predecessors target ++ [source]
      else g.predecessors id := by
  unfold addEdge
  by_cases hmem : target ∈ g.successors source
  · simp [hmem]
  · simp only [hmem, ↓reduceIte, not_false_eq_true, and_true]
    simp only [predecessors, block?, List.getElem?_modify]
    by_cases hid : id = target
    · subst hid
      rw [List.getElem?_eq_getElem htarget]
      simp only [Option.map_eq_map, Option.map_some, ↓reduceIte, Option.elim_some]
      split <;> rfl
    · cases g.blocks[id]? with
      | none => simp [hid]
      | some b =>
          simp only [Option.map_eq_map, Option.map_some, Option.elim_some, hid, Ne.symm hid,
            ↓reduceIte]
          split <;> rfl

theorem mem_successors_addEdge {source target a b : BlockId} (hsource : source < g.count) :
    b ∈ (g.addEdge source target).successors a ↔
      b ∈ g.successors a ∨ a = source ∧ b = target := by
  rw [successors_addEdge hsource]
  split <;> grind

theorem Linked.addEdge {source target : BlockId} (h : g.Linked) (hsource : source < g.count)
    (htarget : target < g.count) : (g.addEdge source target).Linked where
  target_lt hb := by
    rw [count_congr (nodes_addEdge source target)]
    rcases (mem_successors_addEdge hsource).1 hb with hb | ⟨-, rfl⟩
    · exact h.target_lt hb
    · exact htarget
  symmetric {a b} := by
    have hsymm := h.symmetric (a := a) (b := b)
    rw [mem_successors_addEdge hsource, predecessors_addEdge htarget]
    split <;> grind
  nodup_successors a := by
    have hnodup := h.nodup_successors a
    rw [successors_addEdge hsource]
    split <;> grind
  nodup_predecessors b := by
    have hnodup := h.nodup_predecessors b
    have hsymm := h.symmetric (a := source) (b := target)
    rw [predecessors_addEdge htarget]
    split <;> grind

theorem Linked.addEdges {edges : List (BlockId × BlockId)} (h : g.Linked)
    (hedges : ∀ edge ∈ edges, edge.1 < g.count ∧ edge.2 < g.count) :
    (edges.foldl (fun g edge => g.addEdge edge.1 edge.2) g).Linked := by
  induction edges generalizing g with
  | nil => exact h
  | cons edge edges ih =>
      obtain ⟨hedge, hrest⟩ := List.forall_mem_cons.1 hedges
      refine ih (h.addEdge hedge.1 hedge.2) fun e he => ?_
      rw [count_congr (nodes_addEdge edge.1 edge.2)]
      exact hrest e he

theorem linked_ofSegments (leads : OrderedSet Address) (listing : List Instruction) :
    (ofSegments leads listing).Linked := by
  have hsuccessors : ∀ a, (ofSegments leads listing).successors a = [] := by
    intro a
    rw [successors, block?, getElem?_ofSegments]
    cases (segments _ listing)[a]? <;> rfl
  have hpredecessors : ∀ a, (ofSegments leads listing).predecessors a = [] := by
    intro a
    rw [predecessors, block?, getElem?_ofSegments]
    cases (segments _ listing)[a]? <;> rfl
  constructor <;> simp [hsuccessors, hpredecessors]

theorem linked_ofListing (listing : List Instruction) : (ofListing listing).Linked := by
  have hlink : (ofSegments (leaders listing) listing).link.Linked := by
    refine (linked_ofSegments _ _).addEdges fun edge hedge => ?_
    have hindexed := indexed_ofSegments (leaders listing) listing
    simp only [edges, List.mem_flatMap, List.mem_map] at hedge
    obtain ⟨b, hb, target, htarget, rfl⟩ := hedge
    obtain ⟨b', hb'⟩ := exists_block?_of_mem_follow hindexed htarget
    exact ⟨hindexed.id_lt hb, (List.getElem?_eq_some_iff.1 hb').1⟩
  exact ⟨hlink.target_lt, hlink.symmetric, hlink.nodup_successors, hlink.nodup_predecessors⟩

/-! ## Graphs that keep the blocks of a listing -/

/-- The graph of a listing but for edges inserted later, and for what the analyses found. -/
structure Extends (listing : List Instruction) (g : FlowGraph) : Prop where
  nodes_eq : g.nodes = (ofListing listing).nodes
  entry_eq : g.entry = (ofListing listing).entry
  exits_eq : g.exits = (ofListing listing).exits
  linked : g.Linked
  grows : ∀ {a b}, b ∈ (ofListing listing).successors a → b ∈ g.successors a

theorem Extends.congr {g' : FlowGraph} (h : g.Extends listing) (hblocks : g'.blocks = g.blocks)
    (hentry : g'.entry = g.entry) (hexits : g'.exits = g.exits) : g'.Extends listing := by
  obtain ⟨blocks, entry, exits, _, _, _, _⟩ := g'
  obtain rfl : blocks = g.blocks := hblocks
  obtain rfl : entry = g.entry := hentry
  obtain rfl : exits = g.exits := hexits
  obtain ⟨hnodes, hentry, hexits, hlinked, hgrows⟩ := h
  exact ⟨hnodes, hentry, hexits,
    ⟨hlinked.target_lt, hlinked.symmetric, hlinked.nodup_successors, hlinked.nodup_predecessors⟩,
    hgrows⟩

theorem extends_ofListing (listing : List Instruction) : (ofListing listing).Extends listing :=
  ⟨rfl, rfl, rfl, linked_ofListing listing, id⟩

theorem Extends.addEdge {source target : BlockId} (h : g.Extends listing)
    (hsource : source < g.count) (htarget : target < g.count) :
    (g.addEdge source target).Extends listing where
  nodes_eq := (nodes_addEdge source target).trans h.nodes_eq
  entry_eq := by
    rw [← h.entry_eq, FlowGraph.addEdge]
    split <;> rfl
  exits_eq := by
    rw [← h.exits_eq, FlowGraph.addEdge]
    split <;> rfl
  linked := h.linked.addEdge hsource htarget
  grows hb := (mem_successors_addEdge hsource).2 (.inl (h.grows hb))

theorem detectLoops_frame (g : FlowGraph) (heuristic : LoopHeuristic) :
    (g.detectLoops heuristic).blocks = g.blocks ∧ (g.detectLoops heuristic).entry = g.entry ∧
      (g.detectLoops heuristic).exits = g.exits := by
  cases heuristic with
  | dominance =>
      show g.ensureDominators.blocks = _ ∧ g.ensureDominators.entry = _ ∧
        g.ensureDominators.exits = _
      unfold ensureDominators
      split <;> exact ⟨rfl, rfl, rfl⟩
  | addressOrder => exact ⟨rfl, rfl, rfl⟩

theorem Extends.detectLoops (h : g.Extends listing) (heuristic : LoopHeuristic) :
    (g.detectLoops heuristic).Extends listing :=
  have ⟨hblocks, hentry, hexits⟩ := detectLoops_frame g heuristic
  h.congr hblocks hentry hexits

theorem Edited.extends (h : Edited listing analysed g) : g.Extends listing := by
  induction h with
  | empty => exact extends_ofListing []
  | build next _ _ => exact extends_ofListing next
  | addEdge _ hsource htarget ih => exact ih.addEdge hsource htarget
  | computeDominators _ ih => exact ih.congr rfl rfl rfl
  | detectLoops heuristic _ ih => exact ih.detectLoops heuristic

namespace Extends

variable {b : Block}

theorem indexed (h : g.Extends listing) : g.Indexed :=
  (indexed_ofListing listing).congr h.nodes_eq.symm

/-- A block differs from a block of the listing in its edges only. -/
theorem exists_segment (h : g.Extends listing) (hb : b ∈ g.blocks) :
    ∃ s ∈ blockSegments listing,
      b.start = s.1.address ∧ b.instructions = segmentInstructions s ∧
        b.last = (s.2.getLast?.getD s.1).address := by
  obtain ⟨i, hi⟩ := List.mem_iff_getElem?.1 hb
  obtain ⟨b', hb', hunlinked⟩ := block?_congr h.nodes_eq hi
  obtain ⟨s, hs, hstart, hinstructions, hlast⟩ :=
    FlowGraph.exists_segment (List.mem_of_getElem? hb')
  obtain ⟨-, hstart', hlast', hinstructions', -, -⟩ := Block.mk.inj hunlinked
  exact ⟨s, hs, hstart' ▸ hstart, hinstructions' ▸ hinstructions, hlast' ▸ hlast⟩

theorem instructions_eq (h : g.Extends listing) : g.instructions = listing := by
  have hnodes : ∀ g : FlowGraph, g.instructions = g.nodes.flatMap (·.instructions) := by
    intro g
    rw [nodes, List.flatMap_map]
    rfl
  rw [hnodes, h.nodes_eq, ← hnodes, instructions_ofListing]

theorem count_eq (h : g.Extends listing) : g.count = (ofListing listing).count :=
  count_congr h.nodes_eq

theorem entry_eq_ite (h : g.Extends listing) :
    g.entry = if g.count = 0 then none else some 0 := by
  have hentry : (ofListing listing).entry =
      if (ofListing listing).isEmpty then none else some 0 := rfl
  rw [h.entry_eq, hentry, h.count_eq, isEmpty, count]
  simp only [List.isEmpty_iff, List.length_eq_zero_iff]

theorem entry_lt (h : g.Extends listing) {id : BlockId} (hid : g.entry = some id) :
    id < g.count := by
  rw [h.entry_eq_ite] at hid
  split at hid
  · cases hid
  · next hcount =>
    obtain rfl := Option.some.inj hid
    exact Nat.pos_of_ne_zero hcount

theorem exit_lt (h : g.Extends listing) {id : BlockId} (hid : id ∈ g.exits) : id < g.count := by
  rw [h.count_eq]
  rw [h.exits_eq] at hid
  obtain ⟨b, hb, rfl⟩ := List.mem_map.1 hid
  exact (indexed_ofListing listing).id_lt (List.mem_of_mem_filter hb)

theorem wellFormed (h : g.Extends listing) : g.WellFormed listing where
  toLinked := h.linked
  id_eq := h.indexed
  start_eq b hb := by
    obtain ⟨s, -, hstart, hinstructions, -⟩ := h.exists_segment hb
    rw [hinstructions, hstart]
    rfl
  last_eq b hb := by
    obtain ⟨s, -, -, hinstructions, hlast⟩ := h.exists_segment hb
    rw [hinstructions, hlast, segmentInstructions, List.getLast?_cons]
    rfl
  instructions_eq := h.instructions_eq
  source_lt hb := Leads.source_lt (h.linked.symmetric.2 hb)
  exit_lt _ := h.exit_lt
  entry_lt _ := h.entry_lt
  blockAt?_eq a id ha := startOf?_eq_some.1 (h.indexed.startOf?_of_blockAt? ha)

end Extends

/-- Every state of a graph is well formed, whatever was built, inserted and analysed before. -/
theorem wellFormed_of_edited (h : Edited listing analysed g) : g.WellFormed listing :=
  h.extends.wellFormed

/-- Two stretches of code at the same addresses, so that blocks share their starts. -/
def overlaid : List Instruction :=
  [{ address := 0x0, word := 0, mnemonic := "beqz", operands := ["a2", "0x4"] },
    { address := 0x4, word := 0, mnemonic := "ret", operands := [] },
    { address := 0x0, word := 0, mnemonic := "call0", operands := ["0x0"] },
    { address := 0x4, word := 0, mnemonic := "j", operands := ["0x0"] }]

theorem overlaid_wellFormed :
    Edited overlaid ((ofListing overlaid).addEdge 1 0)
        (((ofListing overlaid).addEdge 1 0).detectLoops .dominance) ∧
      (((ofListing overlaid).addEdge 1 0).detectLoops .dominance).WellFormed overlaid := by
  have hedge : Edited overlaid ((ofListing overlaid).addEdge 1 0)
      ((ofListing overlaid).addEdge 1 0) :=
    @Edited.addEdge _ _ _ 1 0 (.build overlaid .empty) (by decide +kernel) (by decide +kernel)
  exact ⟨.detectLoops .dominance hedge, wellFormed_of_edited (.detectLoops .dominance hedge)⟩

end FirmwareLift.FlowGraph
