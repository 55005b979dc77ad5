import FirmwareLift.Proofs.Dataflow.Liveness

/-!
# Reaching definitions

The definitions that reach the blocks of a graph as a flow problem. The analysis finds its least
solution, and these are the definitions that some path carries to a block.
-/

namespace FirmwareLift

theorem Instruction.mem_operands_of_defined {r : String} {insn : Instruction}
    (h : insn.defined? = some r) : r ∈ insn.operands ∧ Operand.isRegister r = true := by
  rw [defined?] at h
  split at h
  · obtain ⟨hhead, hregister⟩ := Option.filter_eq_some_iff.1 h
    exact ⟨List.mem_of_head? hhead, hregister⟩
  · cases h

namespace FlowGraph

variable {g : FlowGraph}

/-- The definitions that reach the blocks of a graph. -/
def reachingProblem (g : FlowGraph) (hg : g.Indexed) : FlowProblem where
  blocks := g.blocks
  count := g.count
  operands := g.instructions.flatMap (·.operands)
  before s b := unionAll (b.predecessors.map s.behindBlock)
  behind s b :=
    ((unionAll (b.predecessors.map s.behindBlock)).diff b.definitions).union b.definitions
  id_lt _ := hg.id_lt
  id_injective _ hb _ := hg.id_injective hb
  before_mono h b := unionAll_map_subset (fun id => (h id).2) b.predecessors
  behind_mono h b r hr := by
    rw [OrderedSet.mem_union, OrderedSet.mem_diff] at hr ⊢
    have hmono := unionAll_map_subset (fun id => (h id).2) b.predecessors
    exact hr.imp_left fun ⟨hreaching, hdef⟩ => ⟨hmono r hreaching, hdef⟩
  before_within h b _ r hr := by
    obtain ⟨id, -, hr⟩ := mem_unionAll_map.1 hr
    exact (h id).2 r hr
  behind_within h b hb r hr := by
    rw [OrderedSet.mem_union, OrderedSet.mem_diff] at hr
    rcases hr with ⟨hr, -⟩ | hr
    · obtain ⟨id, -, hr⟩ := mem_unionAll_map.1 hr
      exact (h id).2 r hr
    · obtain ⟨insn, hinsn, hdefined⟩ := Block.mem_definitions.1 hr
      exact List.mem_flatMap.2
        ⟨insn, mem_instructions hb hinsn, (Instruction.mem_operands_of_defined hdefined).1⟩

section

variable {hg : g.Indexed} {s : FlowSets} {b : Block} {r : String}

theorem mem_before_reachingProblem :
    r ∈ (g.reachingProblem hg).before s b ↔ ∃ a ∈ b.predecessors, r ∈ s.behindBlock a :=
  mem_unionAll_map

/-- What a block defines replaces what reaches it under the same names, so nothing is lost. -/
theorem mem_behind_reachingProblem :
    r ∈ (g.reachingProblem hg).behind s b ↔
      (∃ a ∈ b.predecessors, r ∈ s.behindBlock a) ∨ r ∈ b.definitions := by
  show r ∈ ((unionAll (b.predecessors.map s.behindBlock)).diff b.definitions).union b.definitions ↔
    _
  rw [OrderedSet.mem_union, OrderedSet.mem_diff, mem_unionAll_map]
  by_cases hr : r ∈ b.definitions
  · exact iff_of_true (.inr hr) (.inr hr)
  · exact or_congr_left (and_iff_left hr)

end

theorem solution_reachingProblem (hg : g.Indexed) :
    (g.reachingProblem hg).solution = g.analyze.1.reaching := rfl

/-- What reaches a block is an operand of the graph. -/
theorem mem_operands_of_mem_behindBlock (hg : g.Indexed) {id : BlockId} {r : String}
    (h : r ∈ g.analyze.1.reaching.behindBlock id) :
    ∃ insn ∈ g.instructions, r ∈ insn.operands := by
  rw [← solution_reachingProblem hg] at h
  exact List.mem_flatMap.1 (((g.reachingProblem hg).rising_solution.within id).2 r h)

/-! ## Definitions along paths -/

section

variable (g : FlowGraph)

def Defines (id : BlockId) (r : String) : Prop :=
  ∃ b, g.block? id = some b ∧ ∃ insn ∈ b.instructions, insn.defined? = some r

/-- The sets satisfy the equations of reaching definitions at every block. -/
def ReachingEquations (s : FlowSets) : Prop :=
  ∀ b ∈ g.blocks,
    s.beforeBlock b.id = unionAll (b.predecessors.map s.behindBlock) ∧
      s.behindBlock b.id = ((s.beforeBlock b.id).diff b.definitions).union b.definitions

/-- The passes end in the least solution, which holds what paths carry to the blocks. -/
structure FindsReaching (passes : Nat) (s : FlowSets) : Prop where
  settles : Settles g.reachingPass (.ofCount g.count) passes s
  sized : s.Sized g.count
  mem_before : ∀ id r, r ∈ s.beforeBlock id ↔
    ∃ source, g.Defines source r ∧ Relation.TransGen g.Leads source id
  mem_behind : ∀ id r, r ∈ s.behindBlock id ↔ ∃ source, g.Defines source r ∧ g.Reaches source id
  least : IsLeast {s | g.ReachingEquations s} s

end

variable {listing : List Instruction} {s : FlowSets} {id : BlockId} {r : String}

theorem solved_reachingProblem_iff (hg : g.Indexed) :
    (g.reachingProblem hg).Solved s ↔ g.ReachingEquations s := by
  refine forall₂_congr fun b _ => and_congr_right fun hbefore => ?_
  rw [hbefore]
  rfl

theorem Indexed.mem_definitions (hg : g.Indexed) {b : Block} (hb : b ∈ g.blocks) :
    r ∈ b.definitions ↔ g.Defines b.id r := by
  rw [Block.mem_definitions, Defines, hg.block?_id hb]
  simp only [Option.some.injEq, exists_eq_left']

namespace Extends

theorem leads_iff_mem_predecessors (h : g.Extends listing) {b : Block} (hb : b ∈ g.blocks)
    {a : BlockId} : g.Leads a b.id ↔ a ∈ b.predecessors := by
  rw [← h.indexed.predecessors_id hb]
  exact h.linked.symmetric

theorem mem_before_reaching (h : g.Extends listing) (hs : g.ReachingEquations s)
    (hid : id < g.count) :
    r ∈ s.beforeBlock id ↔ ∃ source, g.Leads source id ∧ r ∈ s.behindBlock source := by
  obtain ⟨b, hb, rfl⟩ := h.indexed.exists_id_eq hid
  simp only [(hs b hb).1, mem_unionAll_map, h.leads_iff_mem_predecessors hb]

/-- Definitions are carried along a path, every step of which takes one of the sets in sequence. -/
theorem mem_behind_of_path (h : g.Extends listing) {t : Nat → FlowSets}
    (ht : (g.reachingProblem h.indexed).Advancing t) {source : BlockId} {path : List BlockId}
    {n : Nat} (hdefines : g.Defines source r) (hpath : g.Path source path id)
    (hn : path.length ≤ n) : r ∈ (t n).behindBlock id := by
  induction hpath generalizing n with
  | start =>
      obtain ⟨n, rfl⟩ := Nat.exists_eq_add_one.2 hn
      have ⟨b, hb, _⟩ := hdefines
      obtain rfl := h.indexed source b hb
      have hmem := List.mem_of_getElem? hb
      have hdefinition := (h.indexed.mem_definitions hmem).2 hdefines
      exact (ht n b hmem).2 r (mem_behind_reachingProblem.2 (.inr hdefinition))
  | @step path a _ _ hleads ih =>
      rw [List.length_append, List.length_singleton] at hn
      obtain ⟨n, rfl⟩ := Nat.exists_eq_add_of_le' (Nat.le_of_add_left_le hn)
      obtain ⟨b, hb, rfl⟩ := h.indexed.exists_id_eq (h.linked.target_lt hleads)
      have ha := (h.leads_iff_mem_predecessors hb).1 hleads
      exact (ht n b hb).2 r
        (mem_behind_reachingProblem.2 (.inl ⟨a, ha, ih (Nat.le_of_succ_le_succ hn)⟩))

theorem mem_behind_of_reaches (h : g.Extends listing) (hs : g.ReachingEquations s)
    {source : BlockId} (hdefines : g.Defines source r) (hreaches : g.Reaches source id) :
    r ∈ s.behindBlock id := by
  obtain ⟨path, hpath⟩ := hreaches.exists_path
  have hsolved := (solved_reachingProblem_iff h.indexed).2 hs
  exact h.mem_behind_of_path hsolved.advancing hdefines hpath le_rfl

/-- The passes bring nothing to a block that no path carries there. -/
theorem below_reaching (h : g.Extends listing) :
    (g.reachingProblem h.indexed).solution.Below
      (fun id r => ∃ source, g.Defines source r ∧ Relation.TransGen g.Leads source id)
      (fun id r => ∃ source, g.Defines source r ∧ g.Reaches source id) := by
  apply FlowProblem.below_solution
  intro s hs b hb
  have hbefore : ∀ r ∈ unionAll (b.predecessors.map s.behindBlock),
      ∃ source, g.Defines source r ∧ Relation.TransGen g.Leads source b.id := by
    intro r hr
    obtain ⟨a, ha, hr⟩ := mem_unionAll_map.1 hr
    obtain ⟨source, hdefines, hreaches⟩ := (hs a).2 r hr
    exact ⟨source, hdefines, .tail' hreaches ((h.leads_iff_mem_predecessors hb).2 ha)⟩
  refine ⟨hbefore, fun r hr => ?_⟩
  rcases OrderedSet.mem_union.1 hr with hr | hr
  · obtain ⟨source, hdefines, hpath⟩ := hbefore r (OrderedSet.mem_diff.1 hr).1
    exact ⟨source, hdefines, hpath.to_reflTransGen⟩
  · exact ⟨b.id, (h.indexed.mem_definitions hb).1 hr, .refl⟩

theorem mem_behind_solution_iff (h : g.Extends listing) :
    r ∈ (g.reachingProblem h.indexed).solution.behindBlock id ↔
      ∃ source, g.Defines source r ∧ g.Reaches source id := by
  have hsolved := (solved_reachingProblem_iff h.indexed).1
    (g.reachingProblem h.indexed).solved_solution
  exact ⟨(h.below_reaching id).2 r, fun ⟨_, hdefines, hreaches⟩ =>
    h.mem_behind_of_reaches hsolved hdefines hreaches⟩

end Extends

/-- Reaching definitions, computed anew for a graph, are the definitions that paths carry on. -/
theorem findsReaching_of_edited {analysed : FlowGraph} (h : Edited listing analysed g) :
    g.FindsReaching ((Dataflow.start g).runReaching g).1
      ((Dataflow.start g).runReaching g).2.reaching := by
  let p := g.reachingProblem h.extends.indexed
  have hsolved : g.ReachingEquations p.solution :=
    (solved_reachingProblem_iff h.extends.indexed).1 p.solved_solution
  have hbelow := h.extends.below_reaching
  exact {
    settles := p.settles_solution
    sized := p.rising_solution.sized
    mem_before := fun id r => by
      refine ⟨(hbelow id).1 r, fun ⟨source, hdefines, hpath⟩ => ?_⟩
      obtain ⟨a, hreaches, hleads⟩ := Relation.TransGen.tail'_iff.1 hpath
      have hbehind := h.extends.mem_behind_of_reaches hsolved hdefines hreaches
      have hlt := h.extends.linked.target_lt hleads
      exact (h.extends.mem_before_reaching hsolved hlt).2 ⟨a, hleads, hbehind⟩
    mem_behind := fun _ _ => h.extends.mem_behind_solution_iff
    least := by
      have hleast := p.isLeast_solution
      simp only [p, solved_reachingProblem_iff] at hleast
      exact hleast }

/-- A loop of one block, and behind the return a definition that jumps into it. -/
def merging : List Instruction :=
  [{ address := 0x0, word := 0, mnemonic := "movi", operands := ["a2", "0x1"] },
    { address := 0x4, word := 0, mnemonic := "addi", operands := ["a3", "a2", "0x1"] },
    { address := 0x8, word := 0, mnemonic := "bnez", operands := ["a3", "0x4"] },
    { address := 0xc, word := 0, mnemonic := "ret", operands := [] },
    { address := 0x10, word := 0, mnemonic := "movi", operands := ["a5", "0x1"] },
    { address := 0x14, word := 0, mnemonic := "j", operands := ["0x4"] }]

/-- The same with an edge from the return back to the entry. -/
def merged : FlowGraph :=
  (ofListing merging).addEdge 2 0

theorem merged_findsReaching :
    Edited merging merged merged ∧
      merged.FindsReaching ((Dataflow.start merged).runReaching merged).1
        ((Dataflow.start merged).runReaching merged).2.reaching ∧
      ((Dataflow.start merged).runReaching merged).2.reaching.before.map (·.toList) =
        [["a2", "a3", "a5"], ["a2", "a3", "a5"], ["a2", "a3", "a5"], []] := by
  have hedited : Edited merging merged merged :=
    @Edited.addEdge _ _ _ 2 0 (.build merging .empty) (by decide +kernel) (by decide +kernel)
  exact ⟨hedited, findsReaching_of_edited hedited, by decide +kernel⟩

end FlowGraph

end FirmwareLift
