import FirmwareLift.Dataflow
import FirmwareLift.Proofs.Dataflow.Problem
import FirmwareLift.Proofs.FlowGraph.Dominance
import FirmwareLift.Proofs.FlowGraph.Editing

/-!
# Live registers

The live registers of a graph as a flow problem, which the analysis solves. They are those that some
path uses before it defines them.
-/

namespace FirmwareLift

theorem mem_unionAll {r : String} {sets : List RegisterSet} :
    r ∈ unionAll sets ↔ ∃ s ∈ sets, r ∈ s := by
  have hfold : ∀ start : RegisterSet,
      r ∈ sets.foldl .union start ↔ r ∈ start ∨ ∃ s ∈ sets, r ∈ s := by
    induction sets with
    | nil => simp
    | cons s rest ih =>
        intro start
        simp only [List.foldl_cons, ih, OrderedSet.mem_union, or_assoc, List.mem_cons,
          exists_eq_or_imp]
  rw [unionAll, hfold]
  exact or_iff_right OrderedSet.mem_empty

theorem mem_unionAll_map {r : String} {sets : BlockId → RegisterSet} {ids : List BlockId} :
    r ∈ unionAll (ids.map sets) ↔ ∃ id ∈ ids, r ∈ sets id := by
  simp only [mem_unionAll, List.mem_map, exists_exists_and_eq_and]

theorem unionAll_map_subset {sets sets' : BlockId → RegisterSet} (h : ∀ id, sets id ⊆ sets' id)
    (ids : List BlockId) : unionAll (ids.map sets) ⊆ unionAll (ids.map sets') := by
  intro r hr
  rw [mem_unionAll_map] at hr ⊢
  obtain ⟨id, hid, hr⟩ := hr
  exact ⟨id, hid, h id r hr⟩

namespace Block

theorem mem_exposedUses_cons {r : String} {insn : Instruction} {rest : List Instruction} :
    r ∈ exposedUses (insn :: rest) ↔
      r ∈ insn.used ∨ r ∈ exposedUses rest ∧ insn.defined? ≠ some r := by
  rw [exposedUses, OrderedSet.mem_insertAll, OrderedSet.mem_filter, decide_eq_true_eq, or_comm]

theorem mem_definitions {r : String} {b : Block} :
    r ∈ b.definitions ↔ ∃ insn ∈ b.instructions, insn.defined? = some r := by
  rw [definitions, OrderedSet.mem_ofList, List.mem_filterMap]

/-- An exposed use stands behind instructions that do not define the register. -/
theorem mem_exposedUses {r : String} {insns : List Instruction} :
    r ∈ exposedUses insns ↔ ∃ front user rest, insns = front ++ user :: rest ∧ r ∈ user.used ∧
      ∀ earlier ∈ front, earlier.defined? ≠ some r := by
  induction insns with
  | nil =>
      refine iff_of_false OrderedSet.mem_empty fun ⟨front, user, rest, heq, _⟩ => ?_
      exact List.append_ne_nil_of_right_ne_nil front (List.cons_ne_nil user rest) heq.symm
  | cons insn insns ih =>
      rw [mem_exposedUses_cons, ih]
      constructor
      · rintro (hused | ⟨⟨front, user, rest, rfl, hused, hfront⟩, hdef⟩)
        · exact ⟨[], insn, insns, rfl, hused, by simp⟩
        · exact ⟨insn :: front, user, rest, rfl, hused, List.forall_mem_cons.2 ⟨hdef, hfront⟩⟩
      · rintro ⟨front, user, rest, heq, hused, hfront⟩
        cases front with
        | nil =>
            obtain ⟨rfl, rfl⟩ := List.cons.inj heq
            exact .inl hused
        | cons first front =>
            obtain ⟨rfl, rfl⟩ := List.cons.inj heq
            obtain ⟨hdef, hfront⟩ := List.forall_mem_cons.1 hfront
            exact .inr ⟨⟨front, user, rest, rfl, hused, hfront⟩, hdef⟩

theorem mem_operands_of_mem_exposedUses {r : String} {insns : List Instruction}
    (h : r ∈ exposedUses insns) : ∃ insn ∈ insns, r ∈ insn.operands := by
  induction insns with
  | nil => exact absurd h OrderedSet.mem_empty
  | cons insn rest ih =>
      rcases mem_exposedUses_cons.1 h with hused | ⟨hrest, -⟩
      · exact ⟨insn, List.mem_cons_self, List.mem_of_mem_drop (List.mem_of_mem_filter hused)⟩
      · obtain ⟨insn', hinsn, hr⟩ := ih hrest
        exact ⟨insn', List.mem_cons_of_mem _ hinsn, hr⟩

end Block

namespace FlowGraph

variable {g : FlowGraph}

theorem Indexed.id_injective (hg : g.Indexed) {b c : Block} (hb : b ∈ g.blocks)
    (hc : c ∈ g.blocks) (h : b.id = c.id) : b = c := by
  have heq := hg.block?_id hc
  rw [← h, hg.block?_id hb] at heq
  exact Option.some.inj heq

/-- The live registers of a graph. -/
def liveProblem (g : FlowGraph) (hg : g.Indexed) : FlowProblem where
  blocks := g.blocks.reverse
  count := g.count
  operands := g.instructions.flatMap (·.operands)
  behind s b := unionAll (b.successors.map s.beforeBlock)
  before s b := ((unionAll (b.successors.map s.beforeBlock)).diff b.definitions).union b.uses
  id_lt b hb := hg.id_lt (List.mem_reverse.1 hb)
  id_injective b hb c hc := hg.id_injective (List.mem_reverse.1 hb) (List.mem_reverse.1 hc)
  behind_mono h b := unionAll_map_subset (fun id => (h id).1) b.successors
  before_mono h b r hr := by
    rw [OrderedSet.mem_union, OrderedSet.mem_diff] at hr ⊢
    have hmono := unionAll_map_subset (fun id => (h id).1) b.successors
    exact hr.imp_left fun ⟨hlive, hdef⟩ => ⟨hmono r hlive, hdef⟩
  behind_within h b _ r hr := by
    obtain ⟨id, -, hr⟩ := mem_unionAll_map.1 hr
    exact (h id).1 r hr
  before_within h b hb r hr := by
    rw [OrderedSet.mem_union, OrderedSet.mem_diff] at hr
    rcases hr with ⟨hr, -⟩ | hr
    · obtain ⟨id, -, hr⟩ := mem_unionAll_map.1 hr
      exact (h id).1 r hr
    · obtain ⟨insn, hinsn, hr⟩ := Block.mem_operands_of_mem_exposedUses hr
      exact List.mem_flatMap.2 ⟨insn, mem_instructions (List.mem_reverse.1 hb) hinsn, hr⟩

theorem solved_live (hg : g.Indexed) :
    (g.liveProblem hg).Solved (g.solveLive (.ofCount g.count)).2 :=
  (g.liveProblem hg).solved_solution

section

variable {hg : g.Indexed} {live : FlowSets} {b : Block} {r : String}

theorem mem_behind_liveProblem :
    r ∈ (g.liveProblem hg).behind live b ↔ ∃ next ∈ b.successors, r ∈ live.beforeBlock next :=
  mem_unionAll_map

theorem mem_before_liveProblem :
    r ∈ (g.liveProblem hg).before live b ↔
      r ∈ b.uses ∨ (∃ next ∈ b.successors, r ∈ live.beforeBlock next) ∧
        ∀ insn ∈ b.instructions, insn.defined? ≠ some r := by
  show r ∈ ((unionAll (b.successors.map live.beforeBlock)).diff b.definitions).union b.uses ↔ _
  rw [OrderedSet.mem_union, OrderedSet.mem_diff, mem_unionAll_map, or_comm, Block.mem_definitions]
  simp only [not_exists, not_and, ne_eq]

variable (hlive : (g.liveProblem hg).Solved live) (hb : b ∈ g.blocks)

include hlive hb

theorem mem_before_live :
    r ∈ live.beforeBlock b.id ↔
      r ∈ b.uses ∨ r ∈ live.behindBlock b.id ∧ ∀ insn ∈ b.instructions, insn.defined? ≠ some r := by
  obtain ⟨hbefore, hbehind⟩ := hlive b (List.mem_reverse.2 hb)
  rw [hbefore, mem_before_liveProblem, hbehind, mem_behind_liveProblem]

theorem mem_behind_live :
    r ∈ live.behindBlock b.id ↔ ∃ next ∈ b.successors, r ∈ live.beforeBlock next := by
  rw [(hlive b (List.mem_reverse.2 hb)).2, mem_behind_liveProblem]

end

/-! ## Uses along paths -/

section

variable (g : FlowGraph)

def instructionsAt (id : BlockId) : List Instruction :=
  (g.block? id).elim [] (·.instructions)

/-- A path leads from the block to a use of the register, and nothing in front of it defines it. -/
def Exposed (id : BlockId) (r : String) : Prop :=
  ∃ path last front user rest, g.Path id path last ∧
    g.instructionsAt last = front ++ user :: rest ∧ r ∈ user.used ∧
      ∀ earlier ∈ path.dropLast.flatMap g.instructionsAt ++ front, earlier.defined? ≠ some r

/-- The passes end, with the registers before each block that are exposed there. -/
structure FindsLive (passes : Nat) (s : FlowSets) : Prop where
  settles : Settles g.livePass (.ofCount g.count) passes s
  sized : s.Sized g.count
  mem_before : ∀ id r, r ∈ s.beforeBlock id ↔ g.Exposed id r
  mem_behind : ∀ id r, r ∈ s.behindBlock id ↔ ∃ next, g.Leads id next ∧ r ∈ s.beforeBlock next

end

variable {id next : BlockId} {r : String} {b : Block}

theorem Indexed.instructionsAt_id (hg : g.Indexed) (hb : b ∈ g.blocks) :
    g.instructionsAt b.id = b.instructions := by
  rw [instructionsAt, hg.block?_id hb, Option.elim_some]

theorem mem_instructions_of_mem_instructionsAt {id : BlockId} {insn : Instruction}
    (h : insn ∈ g.instructionsAt id) : id < g.count ∧ insn ∈ g.instructions := by
  unfold instructionsAt at h
  cases hb : g.block? id with
  | none =>
      rw [hb] at h
      cases h
  | some b =>
      rw [hb] at h
      exact ⟨(List.getElem?_eq_some_iff.1 hb).1, mem_instructions (List.mem_of_getElem? hb) h⟩

theorem Exposed.exists_user {id : BlockId} (h : g.Exposed id r) :
    id < g.count ∧ ∃ insn ∈ g.instructions, r ∈ insn.used := by
  obtain ⟨path, last, front, user, rest, hpath, heq, hused, -⟩ := h
  have hmem : user ∈ g.instructionsAt last := heq ▸ List.mem_append_right front List.mem_cons_self
  obtain ⟨hlast, huser⟩ := mem_instructions_of_mem_instructionsAt hmem
  refine ⟨?_, user, huser, hused⟩
  rcases hpath.cases_head with ⟨-, rfl⟩ | ⟨_, _, hleads, -⟩
  · exact hlast
  · exact hleads.source_lt

theorem exposed_of_mem_exposedUses (h : r ∈ Block.exposedUses (g.instructionsAt id)) :
    g.Exposed id r := by
  obtain ⟨front, user, rest, heq, hused, hfront⟩ := Block.mem_exposedUses.1 h
  exact ⟨[id], id, front, user, rest, .start, heq, hused, hfront⟩

theorem Exposed.of_leads (h : g.Exposed next r) (hleads : g.Leads id next)
    (hdefs : ∀ insn ∈ g.instructionsAt id, insn.defined? ≠ some r) : g.Exposed id r := by
  obtain ⟨path, last, front, user, rest, hpath, heq, hused, hearlier⟩ := h
  refine ⟨id :: path, last, front, user, rest, hpath.cons hleads, heq, hused, ?_⟩
  rw [List.dropLast_cons_of_ne_nil (List.ne_nil_of_mem hpath.mem), List.flatMap_cons,
    List.append_assoc, List.forall_mem_append]
  exact ⟨hdefs, hearlier⟩

/-- The passes find no register live that is not exposed. -/
theorem below_live (hg : g.Indexed) :
    (g.liveProblem hg).solution.Below g.Exposed
      fun id r => ∃ next, g.Leads id next ∧ g.Exposed next r := by
  apply FlowProblem.below_solution
  intro s hs b hb
  have hb := List.mem_reverse.1 hb
  have hbehind : ∀ r ∈ unionAll (b.successors.map s.beforeBlock),
      ∃ next, g.Leads b.id next ∧ g.Exposed next r := by
    intro r hr
    obtain ⟨next, hnext, hr⟩ := mem_unionAll_map.1 hr
    exact ⟨next, (hg.leads_iff hb).2 hnext, (hs next).1 r hr⟩
  refine ⟨fun r hr => ?_, hbehind⟩
  rcases OrderedSet.mem_union.1 hr with hr | huse
  · obtain ⟨hr, hdef⟩ := OrderedSet.mem_diff.1 hr
    obtain ⟨next, hleads, hexposed⟩ := hbehind r hr
    refine hexposed.of_leads hleads fun insn hinsn heq => hdef (Block.mem_definitions.2 ?_)
    exact ⟨insn, hg.instructionsAt_id hb ▸ hinsn, heq⟩
  · exact exposed_of_mem_exposedUses ((hg.instructionsAt_id hb).symm ▸ huse)

/--
What is used at the end of a path is live at its start, unless the path defines it. Every step of
the path takes one of the sets in their sequence.
-/
theorem mem_before_of_path {hg : g.Indexed} {t : Nat → FlowSets} {path : List BlockId}
    {last : BlockId} {n : Nat} (ht : (g.liveProblem hg).Advancing t) (hpath : g.Path id path last)
    (huse : r ∈ Block.exposedUses (g.instructionsAt last))
    (hdefs : ∀ earlier ∈ path.dropLast.flatMap g.instructionsAt, earlier.defined? ≠ some r)
    (hn : path.length ≤ n) : r ∈ (t n).beforeBlock id := by
  induction path generalizing id n with
  | nil => exact absurd hpath.mem List.not_mem_nil
  | cons first path ih =>
      cases n with
      | zero => exact absurd hn (Nat.not_succ_le_zero _)
      | succ n =>
          rcases hpath.cases_head with ⟨heq, rfl⟩ | ⟨next, rest, hleads, hrest, heq⟩
          · cases hb : g.block? last with
            | none =>
                rw [instructionsAt, hb] at huse
                exact absurd huse OrderedSet.mem_empty
            | some b =>
                obtain rfl := hg last b hb
                have hmem : b ∈ g.blocks := List.mem_of_getElem? hb
                rw [hg.instructionsAt_id hmem] at huse
                exact (ht n b (List.mem_reverse.2 hmem)).1 r (mem_before_liveProblem.2 (.inl huse))
          · obtain ⟨rfl, rfl⟩ := List.cons.inj heq
            obtain ⟨b, hb, rfl⟩ := hg.exists_id_eq hleads.source_lt
            rw [List.dropLast_cons_of_ne_nil (List.ne_nil_of_mem hrest.mem), List.flatMap_cons,
              List.forall_mem_append, hg.instructionsAt_id hb] at hdefs
            have hnext := (hg.leads_iff hb).1 hleads
            have hlive := ih hrest hdefs.2 (Nat.le_of_succ_le_succ hn)
            exact (ht n b (List.mem_reverse.2 hb)).1 r
              (mem_before_liveProblem.2 (.inr ⟨⟨next, hnext, hlive⟩, hdefs.1⟩))

theorem mem_before_solution_iff (hg : g.Indexed) :
    r ∈ (g.liveProblem hg).solution.beforeBlock id ↔ g.Exposed id r := by
  refine ⟨(below_live hg id).1 r, fun h => ?_⟩
  obtain ⟨path, last, front, user, rest, hpath, heq, hused, hearlier⟩ := h
  obtain ⟨hdefs, hfront⟩ := List.forall_mem_append.1 hearlier
  exact mem_before_of_path (g.liveProblem hg).solved_solution.advancing hpath
    (Block.mem_exposedUses.2 ⟨front, user, rest, heq, hused, hfront⟩) hdefs le_rfl

/-- Live registers, computed anew for a graph, are those that paths use before they define them. -/
theorem findsLive_of_edited {listing : List Instruction} {analysed : FlowGraph}
    (h : Edited listing analysed g) :
    g.FindsLive ((Dataflow.start g).runLive g).1 ((Dataflow.start g).runLive g).2.live := by
  have hg := h.extends.indexed
  let p := g.liveProblem hg
  have hsized : p.solution.Sized g.count := p.rising_solution.sized
  exact {
    settles := p.settles_solution
    sized := hsized
    mem_before := fun _ _ => mem_before_solution_iff hg
    mem_behind := fun id r => by
      by_cases hid : id < g.count
      · obtain ⟨b, hb, rfl⟩ := hg.exists_id_eq hid
        simp only [hg.leads_iff hb]
        exact mem_behind_live p.solved_solution hb
      · have hnone : r ∉ p.solution.behindBlock id := by
          rw [(hsized.sets_of_le (Nat.not_lt.1 hid)).2]
          exact OrderedSet.mem_empty
        exact iff_of_false hnone fun ⟨_, hleads, _⟩ => hid hleads.source_lt }

/-- A loop of one block, and behind it a definition that a branch goes around. -/
def skipping : List Instruction :=
  [{ address := 0x0, word := 0, mnemonic := "beqz", operands := ["a4", "0x10"] },
    { address := 0x4, word := 0, mnemonic := "addi", operands := ["a2", "a2", "0x1"] },
    { address := 0x8, word := 0, mnemonic := "bnez", operands := ["a2", "0x4"] },
    { address := 0xc, word := 0, mnemonic := "movi", operands := ["a5", "0x0"] },
    { address := 0x10, word := 0, mnemonic := "s32i", operands := ["a5", "a6", "0x0"] },
    { address := 0x14, word := 0, mnemonic := "ret", operands := [] }]

/-- The same with an edge from the return back into the loop. -/
def skipped : FlowGraph :=
  (ofListing skipping).addEdge 3 1

theorem skipped_findsLive :
    Edited skipping skipped skipped ∧
      skipped.FindsLive ((Dataflow.start skipped).runLive skipped).1
        ((Dataflow.start skipped).runLive skipped).2.live ∧
      ((Dataflow.start skipped).runLive skipped).2.live.before.map (·.toList) =
        [["a2", "a4", "a5", "a6"], ["a2", "a6"], ["a2", "a6"], ["a2", "a5", "a6"]] := by
  have hedited : Edited skipping skipped skipped :=
    @Edited.addEdge _ _ _ 3 1 (.build skipping .empty) (by decide +kernel) (by decide +kernel)
  exact ⟨hedited, findsLive_of_edited hedited, by decide +kernel⟩

end FlowGraph

end FirmwareLift
