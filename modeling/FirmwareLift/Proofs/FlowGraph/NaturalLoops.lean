import FirmwareLift.Proofs.FlowGraph.Derived
import Mathlib.Order.Bounds.Basic

/-!
# Natural loops

Every back edge makes one loop. Its body is the least set of blocks around the edge that can be
entered at the header only, and a header that dominates the tail dominates the body.
-/

namespace FirmwareLift.FlowGraph

section

variable (g : FlowGraph)

/-- The edges in the order of their blocks and of the successors of each block. -/
def edgeList : List (BlockId × BlockId) :=
  g.blocks.flatMap fun b => b.successors.map (b.id, ·)

/-- The header dominates the tail, or does not start behind it. -/
def ClosesLoop (heuristic : LoopHeuristic) (tail header : BlockId) : Prop :=
  match heuristic with
  | .dominance => g.Dominates header tail
  | .addressOrder =>
    ∃ b, g.block? tail = some b ∧ ∃ c, g.block? header = some c ∧ c.start ≤ b.start

/-- The blocks hold both ends of a back edge, and all predecessors of what is not the header. -/
structure Encloses (ids : Set BlockId) (tail header : BlockId) : Prop where
  header_mem : header ∈ ids
  tail_mem : tail ∈ ids
  predecessor_mem : ∀ b ∈ ids, b ≠ header → ∀ a ∈ g.predecessors b, a ∈ ids

open Classical in
/-- The loops are those of the back edges, each with the least body, entered at its header only. -/
structure FindsLoops (heuristic : LoopHeuristic) (loops : List Loop) : Prop where
  edges_eq : loops.map (fun l => (l.tail, l.header)) =
    g.edgeList.filter fun edge => g.ClosesLoop heuristic edge.1 edge.2
  body_least : ∀ l ∈ loops, IsLeast {ids | g.Encloses ids l.tail l.header} {id | id ∈ l.body}
  entered_at_header : ∀ l ∈ loops, ∀ a b, g.Leads a b → a ∉ l.body → b ∈ l.body → b = l.header
  header_dominates : heuristic = .dominance →
    ∀ l ∈ loops, ∀ b ∈ l.body, b ∈ g.reachable → g.Dominates l.header b

/-- A step against an edge, which never leaves the header. -/
def Precedes (header b a : BlockId) : Prop :=
  b ≠ header ∧ a ∈ g.predecessors b

end

variable {g g' analysed : FlowGraph} {listing : List Instruction} {heuristic : LoopHeuristic}
  {header tail id : BlockId}

/-! ## Bodies -/

theorem mem_loopBody (hg : g.Linked) (hheader : header < g.count) (htail : tail < g.count) :
    id ∈ g.loopBody header tail ↔
      id = header ∨ Relation.ReflTransGen (g.Precedes header) tail id := by
  let marks := (Marks.ofCount g.count).mark header
  have hmarked : ∀ a, marks[a]? = some true ↔ a = header := by
    simp only [marks, Marks.mark, Marks.ofCount, Array.getElem?_setIfInBounds,
      Array.size_replicate, Array.getElem?_replicate]
    grind
  have hopen : ∀ a, marks[a]? = some false ↔ a < g.count ∧ a ≠ header := by
    simp only [marks, Marks.mark, Marks.ofCount, Array.getElem?_setIfInBounds,
      Array.size_replicate, Array.getElem?_replicate]
    grind
  have hlt : ∀ {b a}, a ∈ g.predecessors b → b < g.count ∧ a < g.count :=
    fun h => ⟨hg.target_lt (hg.symmetric.2 h), Leads.source_lt (hg.symmetric.2 h)⟩
  have hsteps : Marks.Steps g.predecessors marks = g.Precedes header := by
    funext b a
    rw [Marks.Steps, Precedes, hopen, and_assoc]
    exact propext (and_iff_right_of_imp fun h => (hlt h.2).1)
  rw [loopBody, Marks.mem_ids, Marks.getElem?_flood, hsteps, hmarked, hopen]
  simp only [List.mem_singleton, exists_eq_left]
  constructor
  · exact Or.imp_right And.right
  · rintro (rfl | hpath)
    · exact .inl rfl
    · rcases Relation.ReflTransGen.cases_tail hpath with rfl | ⟨b, -, hb⟩
      · exact (em (id = header)).imp_right fun hne => ⟨⟨htail, hne⟩, hpath⟩
      · exact (em (id = header)).imp_right fun hne => ⟨⟨(hlt hb.2).2, hne⟩, hpath⟩

theorem encloses_loopBody (hg : g.Linked) (hheader : header < g.count) (htail : tail < g.count) :
    g.Encloses {id | id ∈ g.loopBody header tail} tail header where
  header_mem := (mem_loopBody hg hheader htail).2 (.inl rfl)
  tail_mem := (mem_loopBody hg hheader htail).2 (.inr .refl)
  predecessor_mem b hb hne a ha := by
    rcases (mem_loopBody hg hheader htail).1 hb with heq | hpath
    · exact absurd heq hne
    · exact (mem_loopBody hg hheader htail).2 (.inr (hpath.tail ⟨hne, ha⟩))

theorem Encloses.mem {ids : Set BlockId} (h : g.Encloses ids tail header)
    (hpath : Relation.ReflTransGen (g.Precedes header) tail id) : id ∈ ids := by
  induction hpath with
  | refl => exact h.tail_mem
  | tail _ hstep ih => exact h.predecessor_mem _ ih hstep.1 _ hstep.2

theorem isLeast_loopBody (hg : g.Linked) (hheader : header < g.count) (htail : tail < g.count) :
    IsLeast {ids | g.Encloses ids tail header} {id | id ∈ g.loopBody header tail} := by
  refine ⟨encloses_loopBody hg hheader htail, fun ids hids id hid => ?_⟩
  rcases (mem_loopBody hg hheader htail).1 hid with rfl | hpath
  · exact hids.header_mem
  · exact hids.mem hpath

/-- Against the edges, dominance is handed on from the tail up to the header. -/
theorem Dominates.of_precedes {entry : BlockId} (hentry : g.entry = some entry)
    (hg : g.Linked) (h : g.Dominates header tail)
    (hpath : Relation.ReflTransGen (g.Precedes header) tail id) (hid : g.Reaches entry id) :
    g.Dominates header id := by
  induction hpath with
  | refl => exact h
  | @tail b a _ hstep ih =>
      have hleads : g.Leads a b := hg.symmetric.2 hstep.2
      exact (ih (hid.tail hleads)).of_leads hentry hid hleads (Ne.symm hstep.1)

theorem dominates_self (id : BlockId) : g.Dominates id id where
  on_path _ _ _ _ hpath := hpath.mem
  unreachable _ := rfl

/-! ## Back edges -/

open Classical in
theorem map_edges_findLoops (hblocks : g'.blocks = g.blocks)
    (hback : ∀ b ∈ g.blocks, ∀ header ∈ b.successors,
      g'.isBackEdge heuristic b header = true ↔ g.ClosesLoop heuristic b.id header) :
    (g'.findLoops heuristic).map (fun l => (l.tail, l.header)) =
      g.edgeList.filter fun edge => g.ClosesLoop heuristic edge.1 edge.2 := by
  rw [findLoops, hblocks, edgeList, List.map_flatMap, List.filter_flatMap]
  refine List.flatMap_congr fun b hb => ?_
  rw [List.map_map, List.filter_map]
  refine congrArg (List.map (b.id, ·)) (List.filter_congr fun header hheader => ?_)
  rw [Bool.eq_iff_iff, hback b hb header hheader]
  simp

theorem loopBody_congr (hblocks : g'.blocks = g.blocks) : g'.loopBody = g.loopBody := by
  have hpredecessors : g'.predecessors = g.predecessors := by
    funext id
    rw [predecessors, predecessors, block?, block?, hblocks]
  funext header tail
  rw [loopBody, loopBody, hpredecessors, count, count, hblocks]

/-- With the right back edges, what is found on the blocks of a graph are its loops. -/
theorem Extends.findsLoops (h : g.Extends listing) (hblocks : g'.blocks = g.blocks)
    (hback : ∀ b ∈ g.blocks, ∀ header ∈ b.successors,
      g'.isBackEdge heuristic b header = true ↔ g.ClosesLoop heuristic b.id header) :
    g.FindsLoops heuristic (g'.findLoops heuristic) := by
  have hloops : ∀ l ∈ g'.findLoops heuristic, g.ClosesLoop heuristic l.tail l.header ∧
      l.tail < g.count ∧ l.header < g.count ∧ l.body = g.loopBody l.header l.tail := by
    intro l hl
    obtain ⟨b, hb, header, hheader, hedge, rfl⟩ := mem_findLoops.1 hl
    rw [hblocks] at hb
    have hleads := (h.indexed.leads_iff hb).2 hheader
    exact ⟨(hback b hb header hheader).1 hedge, h.indexed.id_lt hb, h.linked.target_lt hleads,
      by rw [loopBody_congr hblocks]⟩
  refine ⟨map_edges_findLoops hblocks hback, fun l hl => ?_, fun l hl a b hleads ha hb => ?_,
    fun hheuristic l hl b hb hreachable => ?_⟩
  · obtain ⟨-, htail, hheader, hbody⟩ := hloops l hl
    rw [hbody]
    exact isLeast_loopBody h.linked hheader htail
  · obtain ⟨-, htail, hheader, hbody⟩ := hloops l hl
    rw [hbody] at ha hb
    by_contra hne
    have hencloses := encloses_loopBody h.linked hheader htail
    exact ha (hencloses.predecessor_mem b hb hne a (h.linked.symmetric.1 hleads))
  · obtain ⟨hcloses, htail, hheader, hbody⟩ := hloops l hl
    obtain ⟨entry, hentry, hreaches⟩ := hreachable
    subst hheuristic
    rw [hbody] at hb
    rcases (mem_loopBody h.linked hheader htail).1 hb with rfl | hpath
    · exact dominates_self _
    · exact Dominates.of_precedes hentry h.linked hcloses hpath hreaches

/--
A search for loops finds exactly the natural loops of the graph, if the dominators it goes by are
those of the present edges.
-/
theorem findsLoops_of_edited (h : Edited listing analysed g)
    (hcurrent : heuristic = .dominance → g.successors = analysed.successors) :
    g.FindsLoops heuristic (g.detectLoops heuristic).loops := by
  have hindexed := h.extends.indexed
  cases heuristic with
  | dominance =>
      have hsame := hcurrent rfl
      have hentry := h.recorded.after.entry_eq.trans h.recorded.before.entry_eq.symm
      refine h.extends.findsLoops (detectLoops_frame g .dominance).1 fun b hb header _ => ?_
      refine (h.recorded.dominates_iff (hindexed.id_lt hb)).trans ?_
      exact ⟨fun hd => hd.congr hsame.symm hentry.symm, fun hd => hd.congr hsame hentry⟩
  | addressOrder =>
      have hback : ∀ b ∈ g.blocks, ∀ header ∈ b.successors,
          g.isBackEdge .addressOrder b header = true ↔
            g.ClosesLoop .addressOrder b.id header := by
        intro b hb header _
        simp only [isBackEdge, ClosesLoop, hindexed.block?_id hb, startOf?, Option.any_map,
          Option.any_eq_true, decide_eq_true_eq, Option.some.injEq, exists_eq_left']
      exact h.extends.findsLoops rfl hback

/-- A cycle that is entered at both of its blocks, with an edge from the return back into it. -/
def crossed : FlowGraph :=
  (ofListing crossing).addEdge 3 2

theorem crossed_findsLoops :
    Edited crossing crossed crossed.computeDominators.2 ∧
      crossed.computeDominators.2.successors = crossed.successors ∧
      (∀ heuristic, crossed.computeDominators.2.FindsLoops heuristic
        (crossed.computeDominators.2.detectLoops heuristic).loops) ∧
      (crossed.computeDominators.2.detectLoops .addressOrder).loops.map
        (fun l => (l.tail, l.header)) = [(2, 1), (3, 2), (4, 1)] := by
  have hedited : Edited crossing crossed crossed.computeDominators.2 :=
    .computeDominators
      (@Edited.addEdge _ _ _ 3 2 (.build crossing .empty) (by decide +kernel) (by decide +kernel))
  exact ⟨hedited, rfl, fun _ => findsLoops_of_edited hedited fun _ => rfl, by decide +kernel⟩

end FirmwareLift.FlowGraph
