import FirmwareLift.Proofs.Dataflow.Reaching
import FirmwareLift.Proofs.FlowGraph.Dominators

/-!
# Numbers of passes

A pass takes every fact at least one edge further along its path, in whatever order the blocks are
visited. No path has to meet a block twice, so the number of blocks bounds that of the passes.
-/

namespace FirmwareLift.FlowGraph

variable {g : FlowGraph} {listing : List Instruction} {source entry a b id : BlockId}
  {path : List BlockId} {r : String} {n : Nat}

/-! ## Short paths -/

theorem Path.exists_front (h : g.Path source path b) (ha : a ∈ path) :
    ∃ front, g.Path source front a ∧ front <+: path := by
  induction h with
  | start => exact ⟨[source], List.mem_singleton.1 ha ▸ .start, List.prefix_rfl⟩
  | @step path x y hpath hleads ih =>
      rcases List.mem_append.1 ha with ha | ha
      · obtain ⟨front, hfront, hinitial⟩ := ih ha
        exact ⟨front, hfront, hinitial.trans (List.prefix_append path [y])⟩
      · obtain rfl := List.mem_singleton.1 ha
        exact ⟨path ++ [a], hpath.step hleads, List.prefix_rfl⟩

/-- A path without its detours. -/
theorem Path.exists_nodup (h : g.Path source path b) :
    ∃ short, g.Path source short b ∧ short.Nodup ∧ short ⊆ path ∧
      short.dropLast ⊆ path.dropLast := by
  induction h with
  | start => exact ⟨[source], .start, List.nodup_singleton source, fun _ h => h, fun _ h => h⟩
  | @step path x y _ hleads ih =>
      obtain ⟨short, hshort, hnodup, hsubset, -⟩ := ih
      rw [List.dropLast_concat]
      by_cases hy : y ∈ short
      · -- The last block was met before, where the path may end at once.
        obtain ⟨front, hfront, hinitial⟩ := hshort.exists_front hy
        have hfront_subset : front ⊆ path := fun z hz => hsubset (hinitial.subset hz)
        exact ⟨front, hfront, hnodup.sublist hinitial.sublist,
          fun z hz => List.mem_append_left _ (hfront_subset hz),
          fun z hz => hfront_subset (List.mem_of_mem_dropLast hz)⟩
      · refine ⟨short ++ [y], hshort.step hleads, ?_, List.append_subset.2 ⟨?_, ?_⟩, ?_⟩
        · rw [← List.concat_eq_append]
          exact hnodup.concat hy
        · exact fun z hz => List.mem_append_left _ (hsubset hz)
        · exact List.subset_append_right _ _
        · rwa [List.dropLast_concat]

theorem Linked.exists_short_path (hg : g.Linked) (hsource : source < g.count)
    (h : g.Path source path b) :
    ∃ short, g.Path source short b ∧ short.length ≤ g.count ∧ short ⊆ path ∧
      short.dropLast ⊆ path.dropLast := by
  obtain ⟨short, hshort, hnodup, hsubset, hdropLast⟩ := h.exists_nodup
  have hids : short ⊆ List.range g.count := fun a ha =>
    List.mem_range.2 (hg.lt_of_reaches hsource (hshort.reaches_of_mem ha))
  have hlength := (List.subperm_of_subset hnodup hids).length_le
  rw [List.length_range] at hlength
  exact ⟨short, hshort, hlength, hsubset, hdropLast⟩

/-! ## Dominators -/

theorem Descending.setOf_eq_of_not_mem {sets lower : List (OrderedSet BlockId)}
    (h : g.Descending entry sets) (hlower : g.Descending entry lower)
    (hid : id ∉ g.refinedBlocks entry) : setOf sets id = setOf lower id := by
  by_cases hlt : id < g.count
  · rw [h.own id hlt hid, hlower.own id hlt hid]
  · rw [h.setOf_of_le (Nat.not_lt.1 hlt), hlower.setOf_of_le (Nat.not_lt.1 hlt)]

theorem Rooted.solveDominators_le_iterate (hg : g.Rooted entry) (hn : g.count ≤ n + 1)
    (ha : a ∈ setOf ((g.dominatorPass (g.reachableFrom entry) (g.refinedBlocks entry))^[n]
      (g.initialDominators (g.refinedBlocks entry))) id) :
    a ∈ setOf g.solveDominators.2 id := by
  by_cases hid : id ∈ g.refinedBlocks entry
  · have hreaches := (hg.mem_refinedBlocks.1 hid).1
    rw [hg.mem_solveDominators (hg.lt_of_reaches hreaches),
      dominates_iff_of_reaches hg.entry_eq hreaches]
    intro path hpath
    obtain ⟨short, hshort, hlength, hsubset, -⟩ :=
      hg.toLinked.exists_short_path hg.entry_lt hpath
    exact hsubset (hg.narrowing_iterate.mem_path hg hshort (hlength.trans hn) ha)
  · rwa [hg.descending_solveDominators.setOf_eq_of_not_mem (hg.narrowing_iterate.descending n) hid]

theorem Rooted.passes_le (hg : g.Rooted entry) : g.solveDominators.1 ≤ g.count := by
  obtain ⟨n, hn⟩ := Nat.exists_eq_add_one.2 (Nat.pos_of_ne_zero (Nat.ne_zero_of_lt hg.entry_lt))
  rw [hn]
  exact (Descending.oneWay hg).passes_le hg.settles_solveDominators hg.descending_initial
    fun _ _ => hg.solveDominators_le_iterate hn.le

/-! ## Flow sets -/

namespace Extends

variable (h : g.Extends listing)

include h

theorem mem_before_iterate_live (hexposed : g.Exposed id r) (hn : g.count ≤ n) :
    r ∈ ((g.liveProblem h.indexed).pass^[n] (.ofCount g.count)).beforeBlock id := by
  have hid := hexposed.exists_user.1
  obtain ⟨path, last, front, user, rest, hpath, heq, hused, hearlier⟩ := hexposed
  obtain ⟨hdefs, hfront⟩ := List.forall_mem_append.1 hearlier
  obtain ⟨short, hshort, hlength, -, hdropLast⟩ := h.linked.exists_short_path hid hpath
  have huse := Block.mem_exposedUses.2 ⟨front, user, rest, heq, hused, hfront⟩
  refine mem_before_of_path (g.liveProblem h.indexed).advancing_iterate hshort huse
    (fun earlier hmem => ?_) (hlength.trans hn)
  obtain ⟨block, hblock, hmem⟩ := List.mem_flatMap.1 hmem
  exact hdefs earlier (List.mem_flatMap.2 ⟨block, hdropLast hblock, hmem⟩)

theorem passes_live_le : (g.solveLive (.ofCount g.count)).1 ≤ g.count + 2 := by
  let p := g.liveProblem h.indexed
  refine p.passes_le (n := g.count + 1) fun id => ⟨fun r hr => ?_, fun r hr => ?_⟩
  · exact h.mem_before_iterate_live ((below_live h.indexed id).1 r hr) (Nat.le_succ _)
  · -- What is live behind a block is live before a successor, and known there one pass earlier.
    obtain ⟨next, hleads, hexposed⟩ := (below_live h.indexed id).2 r hr
    obtain ⟨b, hb, rfl⟩ := h.indexed.exists_id_eq hleads.source_lt
    have hnext := h.mem_before_iterate_live hexposed le_rfl
    exact (p.advancing_iterate g.count b (List.mem_reverse.2 hb)).2 r
      (mem_behind_liveProblem.2 ⟨next, (h.indexed.leads_iff hb).1 hleads, hnext⟩)

theorem mem_behind_iterate_reaching (hdefines : g.Defines source r)
    (hreaches : g.Reaches source id) (hn : g.count ≤ n) :
    r ∈ ((g.reachingProblem h.indexed).pass^[n] (.ofCount g.count)).behindBlock id := by
  have ⟨b, hb, _⟩ := hdefines
  obtain ⟨path, hpath⟩ := hreaches.exists_path
  obtain ⟨short, hshort, hlength, -⟩ :=
    h.linked.exists_short_path (List.getElem?_eq_some_iff.1 hb).1 hpath
  exact h.mem_behind_of_path (g.reachingProblem h.indexed).advancing_iterate hdefines hshort
    (hlength.trans hn)

theorem passes_reaching_le : (g.solveReaching (.ofCount g.count)).1 ≤ g.count + 2 := by
  let p := g.reachingProblem h.indexed
  refine p.passes_le (n := g.count + 1) fun id => ⟨fun r hr => ?_, fun r hr => ?_⟩
  · -- What reaches a block comes from behind a predecessor, and is known there one pass earlier.
    obtain ⟨source, hdefines, hpath⟩ := (h.below_reaching id).1 r hr
    obtain ⟨a, hreaches, hleads⟩ := Relation.TransGen.tail'_iff.1 hpath
    obtain ⟨b, hb, rfl⟩ := h.indexed.exists_id_eq (h.linked.target_lt hleads)
    have hbehind := h.mem_behind_iterate_reaching hdefines hreaches le_rfl
    exact (p.advancing_iterate g.count b hb).1 r
      (mem_before_reachingProblem.2 ⟨a, (h.leads_iff_mem_predecessors hb).1 hleads, hbehind⟩)
  · obtain ⟨source, hdefines, hreaches⟩ := (h.below_reaching id).2 r hr
    exact h.mem_behind_iterate_reaching hdefines hreaches (Nat.le_succ _)

end Extends

/-! ## All analyses -/

/-- The loops of the three analyses end on their own, after no more passes than these. -/
structure PassesBounded (g : FlowGraph) : Prop where
  entry_eq : g.entry = if g.count = 0 then none else some 0
  dominators : ∀ entry, g.entry = some entry →
    Settles (g.dominatorPass (g.reachableFrom entry) (g.refinedBlocks entry))
      (g.initialDominators (g.refinedBlocks entry))
      g.computeDominators.1 g.computeDominators.2.dominators
  dominators_le : g.computeDominators.1 ≤ g.count
  reaching : Settles g.reachingPass (.ofCount g.count) ((Dataflow.start g).runReaching g).1
    ((Dataflow.start g).runReaching g).2.reaching
  reaching_le : ((Dataflow.start g).runReaching g).1 ≤ g.count + 2
  live : Settles g.livePass (.ofCount g.count) ((Dataflow.start g).runLive g).1
    ((Dataflow.start g).runLive g).2.live
  live_le : ((Dataflow.start g).runLive g).1 ≤ g.count + 2

theorem Extends.passes_dominators_le (h : g.Extends listing) :
    g.solveDominators.1 ≤ g.count := by
  by_cases hcount : g.count = 0
  · rw [h.solveDominators_of_empty hcount]
    exact Nat.zero_le _
  · exact (h.rooted (h.entry_eq_zero (Nat.pos_of_ne_zero hcount))).passes_le

/-- The numbers of passes are linear in the number of blocks, for every graph that can be made. -/
theorem passesBounded_of_edited {analysed : FlowGraph} (h : Edited listing analysed g) :
    g.PassesBounded where
  entry_eq := h.extends.entry_eq_ite
  dominators _ hentry := (h.extends.rooted hentry).settles_solveDominators
  dominators_le := h.extends.passes_dominators_le
  reaching := (g.reachingProblem h.extends.indexed).settles_solution
  reaching_le := h.extends.passes_reaching_le
  live := (g.liveProblem h.extends.indexed).settles_solution
  live_le := h.extends.passes_live_le

/-- Code that leads from block to block against the order of their addresses. -/
def climbing : List Instruction :=
  [{ address := 0x0, word := 0, mnemonic := "j", operands := ["0xc"] },
    { address := 0x4, word := 0, mnemonic := "ret", operands := [] },
    { address := 0x8, word := 0, mnemonic := "j", operands := ["0x4"] },
    { address := 0xc, word := 0, mnemonic := "movi", operands := ["a2", "0x1"] },
    { address := 0x10, word := 0, mnemonic := "beqz", operands := ["a3", "0x8"] }]

/-- The same with an edge from the return back to the entry. -/
def climbed : FlowGraph :=
  (ofListing climbing).addEdge 1 0

theorem climbed_passesBounded :
    Edited climbing climbed climbed ∧ climbed.PassesBounded ∧ climbed.count = 4 ∧
      ((Dataflow.start climbed).runReaching climbed).1 = 5 ∧
      ((Dataflow.start climbed).runLive climbed).1 = 5 := by
  have hedited : Edited climbing climbed climbed :=
    @Edited.addEdge _ _ _ 1 0 (.build climbing .empty) (by decide +kernel) (by decide +kernel)
  exact ⟨hedited, passesBounded_of_edited hedited, by decide +kernel⟩

/-- A block that leads to itself takes as many passes over the flow sets as one block can. -/
example :
    let g := ofListing
      [{ address := 0x0, word := 0, mnemonic := "addi", operands := ["a2", "a2", "0x1"] },
        { address := 0x4, word := 0, mnemonic := "j", operands := ["0x0"] }]
    ((Dataflow.start g).runReaching g).1 = 3 ∧ ((Dataflow.start g).runLive g).1 = 3 := by
  decide +kernel

end FirmwareLift.FlowGraph
