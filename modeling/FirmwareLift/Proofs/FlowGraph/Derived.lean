import FirmwareLift.Proofs.FlowGraph.Dominators

/-!
# Derived facts of edited graphs

The exits are found when a listing is built and the dominators when they are asked for. Edges that
are inserted later leave both as they were, so the facts are those of an earlier graph.
-/

namespace FirmwareLift.FlowGraph

section

variable (g : FlowGraph)

/-- The block leads nowhere or ends in a return. -/
def IsExit (id : BlockId) : Prop :=
  ∃ b, g.block? id = some b ∧ (b.successors = [] ∨ b.isReturn = true)

/-- A search for loops by dominance finds the back edge. -/
def ReportsLoop (tail header : BlockId) : Prop :=
  ∃ l ∈ (g.detectLoops .dominance).loops, l.tail = tail ∧ l.header = header

/-- The exits and the loops are those of the edges that the graph has now. -/
structure UpToDate : Prop where
  mem_exits : ∀ id, id ∈ g.exits ↔ g.IsExit id
  reportsLoop : ∀ tail header,
    g.ReportsLoop tail header ↔ g.Leads tail header ∧ g.Dominates header tail

end

variable {g g' analysed : FlowGraph} {listing : List Instruction} {id tail header : BlockId}

/-! ## Exits -/

theorem isExit_iff :
    g.IsExit id ↔ ∃ b, g.block? id = some b ∧ (g.successors id = [] ∨ b.isReturn = true) :=
  exists_congr fun b => and_congr_right fun hb => by rw [successors, hb, Option.elim_some]

theorem mem_exits_ofListing : id ∈ (ofListing listing).exits ↔ (ofListing listing).IsExit id := by
  have hexits : id ∈ (ofListing listing).exits ↔ ∃ b ∈ (ofListing listing).blocks,
      (b.successors = [] ∨ b.isReturn = true) ∧ b.id = id := by
    rw [ofListing, close, List.mem_map]
    simp only [List.mem_filter, Bool.or_eq_true, List.isEmpty_iff, and_assoc]
  rw [hexits]
  constructor
  · rintro ⟨b, hb, hexit, rfl⟩
    exact ⟨b, (indexed_ofListing listing).block?_id hb, hexit⟩
  · rintro ⟨b, hb, hexit⟩
    exact ⟨b, List.mem_of_getElem? hb, hexit, indexed_ofListing listing id b hb⟩

namespace Extends

theorem mem_exits (h : g.Extends listing) : id ∈ g.exits ↔ (ofListing listing).IsExit id := by
  rw [h.exits_eq, mem_exits_ofListing]

/-- The exits stay right as long as no edge leaves a block that led nowhere. -/
theorem mem_exits_iff_isExit (h : g.Extends listing)
    (hends : ∀ id, (ofListing listing).successors id = [] → g.successors id = []) :
    id ∈ g.exits ↔ g.IsExit id := by
  have hleads : (ofListing listing).successors id = [] ↔ g.successors id = [] := by
    refine ⟨hends id, fun hnil => List.eq_nil_iff_forall_not_mem.2 fun b hb => ?_⟩
    have hmem := h.grows hb
    rw [hnil] at hmem
    cases hmem
  have hreturn : ∀ {b b' : Block}, b'.unlinked = b.unlinked → b'.isReturn = b.isReturn :=
    fun {b b'} heq => show b'.unlinked.isReturn = b.unlinked.isReturn from heq ▸ rfl
  rw [h.mem_exits, isExit_iff, isExit_iff]
  constructor
  · rintro ⟨b, hb, hexit⟩
    obtain ⟨b', hb', heq⟩ := block?_congr h.nodes_eq.symm hb
    exact ⟨b', hb', hexit.imp hleads.1 ((hreturn heq).trans ·)⟩
  · rintro ⟨b, hb, hexit⟩
    obtain ⟨b', hb', heq⟩ := block?_congr h.nodes_eq hb
    exact ⟨b', hb', hexit.imp hleads.2 ((hreturn heq).trans ·)⟩

end Extends

/-! ## Dominators -/

theorem solveDominators_congr (hblocks : g.blocks = g'.blocks) (hentry : g.entry = g'.entry) :
    g.solveDominators = g'.solveDominators := by
  obtain ⟨blocks, entry, _, _, _, _, _⟩ := g
  obtain ⟨blocks', entry', _, _, _, _, _⟩ := g'
  obtain rfl : blocks = blocks' := hblocks
  obtain rfl : entry = entry' := hentry
  rfl

/-- Dominators that are there are those of the analysed graph; without any, the edges are its. -/
structure Recorded (listing : List Instruction) (analysed g : FlowGraph) : Prop where
  before : analysed.Extends listing
  after : g.Extends listing
  missing : g.dominators = [] → analysed.blocks = g.blocks
  present : g.dominators ≠ [] → g.dominators = analysed.solveDominators.2

theorem Recorded.length_eq (h : Recorded listing analysed g) :
    analysed.solveDominators.2.length = g.count := by
  rw [h.before.length_solveDominators, h.before.count_eq, h.after.count_eq]

theorem Recorded.dominators_ensureDominators (h : Recorded listing analysed g) :
    g.ensureDominators.dominators = analysed.solveDominators.2 := by
  by_cases hnil : g.dominators = []
  · have hsolve : g.solveDominators = analysed.solveDominators :=
      solveDominators_congr (h.missing hnil).symm (h.after.entry_eq.trans h.before.entry_eq.symm)
    rw [ensureDominators]
    split
    · next hsame =>
      rw [hnil] at hsame ⊢
      exact (List.length_eq_zero_iff.1 (h.length_eq.trans hsame.symm)).symm
    · exact congrArg Prod.snd hsolve
  · have hpresent := h.present hnil
    rw [ensureDominators, if_pos (hpresent ▸ h.length_eq), hpresent]

theorem dominators_addEdge (source target : BlockId) :
    (g.addEdge source target).dominators = g.dominators := by
  rw [addEdge]
  split <;> rfl

theorem dominators_ofListing (listing : List Instruction) :
    (ofListing listing).dominators = [] := by
  have hadd : ∀ (edges : List (BlockId × BlockId)) (g : FlowGraph),
      (edges.foldl (fun g edge => g.addEdge edge.1 edge.2) g).dominators = g.dominators := by
    intro edges
    induction edges with
    | nil => exact fun _ => rfl
    | cons edge edges ih => exact fun g => (ih _).trans (dominators_addEdge edge.1 edge.2)
  exact hadd _ _

theorem recorded_ofListing (listing : List Instruction) :
    Recorded listing (ofListing listing) (ofListing listing) where
  before := extends_ofListing listing
  after := extends_ofListing listing
  missing _ := rfl
  present h := absurd (dominators_ofListing listing) h

theorem Recorded.addEdge {source target : BlockId} (h : Recorded listing analysed g)
    (hsource : source < g.count) (htarget : target < g.count) :
    Recorded listing (if g.dominators = [] then g.addEdge source target else analysed)
      (g.addEdge source target) := by
  have hafter := h.after.addEdge hsource htarget
  have hkept := @dominators_addEdge g source target
  split
  · next hnil => exact ⟨hafter, hafter, fun _ => rfl, fun hne => absurd (hkept.trans hnil) hne⟩
  · next hne =>
    exact ⟨h.before, hafter, fun hnil => absurd (hkept.symm.trans hnil) hne,
      fun _ => hkept.trans (h.present hne)⟩

theorem Recorded.detectLoops (h : Recorded listing analysed g) (heuristic : LoopHeuristic) :
    Recorded listing analysed (g.detectLoops heuristic) where
  before := h.before
  after := h.after.detectLoops heuristic
  missing hnil := by
    cases heuristic with
    | dominance =>
        -- Nothing was computed only if there is no block to compute it for.
        have hlength := h.length_eq
        rw [← h.dominators_ensureDominators] at hlength
        have hzero : g.count = 0 := hlength.symm.trans (List.length_eq_zero_iff.2 hnil)
        have hcount : analysed.count = g.count := h.before.count_eq.trans h.after.count_eq.symm
        rw [(detectLoops_frame g .dominance).1, List.length_eq_zero_iff.1 hzero]
        exact List.length_eq_zero_iff.1 (hcount.trans hzero)
    | addressOrder => exact h.missing hnil
  present hne := by
    cases heuristic with
    | dominance => exact h.dominators_ensureDominators
    | addressOrder => exact h.present hne

theorem Edited.recorded (h : Edited listing analysed g) : Recorded listing analysed g := by
  induction h with
  | empty => exact recorded_ofListing []
  | build next _ _ => exact recorded_ofListing next
  | addEdge _ hsource htarget ih => exact ih.addEdge hsource htarget
  | computeDominators _ ih =>
      exact ⟨ih.after, ih.after.congr rfl rfl rfl, fun _ => rfl, fun _ => rfl⟩
  | detectLoops heuristic _ ih => exact ih.detectLoops heuristic

/-! ## Loops -/

theorem mem_findLoops {heuristic : LoopHeuristic} {l : Loop} :
    l ∈ g.findLoops heuristic ↔ ∃ b ∈ g.blocks, ∃ header ∈ b.successors,
      g.isBackEdge heuristic b header = true ∧
        { header, tail := b.id, body := g.loopBody header b.id } = l := by
  simp only [findLoops, List.mem_flatMap, List.mem_map, List.mem_filter, and_assoc]

theorem reportsLoop_iff_dominates (hg : g.Indexed) :
    g.ReportsLoop tail header ↔
      g.Leads tail header ∧ g.ensureDominators.dominates header tail = true := by
  have hloops : (g.detectLoops .dominance).loops = g.ensureDominators.findLoops .dominance := rfl
  have hblocks : g.ensureDominators.blocks = g.blocks := (detectLoops_frame g .dominance).1
  simp only [ReportsLoop, hloops, mem_findLoops, hblocks]
  constructor
  · rintro ⟨_, ⟨b, hb, target, htarget, hback, rfl⟩, rfl, rfl⟩
    exact ⟨(hg.leads_iff hb).2 htarget, hback⟩
  · rintro ⟨hleads, hback⟩
    obtain ⟨b, hb, rfl⟩ := hg.exists_id_eq hleads.source_lt
    exact ⟨_, ⟨b, hb, header, (hg.leads_iff hb).1 hleads, hback, rfl⟩, rfl, rfl⟩

theorem Recorded.dominates_iff (h : Recorded listing analysed g) (htail : tail < g.count) :
    g.ensureDominators.dominates header tail = true ↔ analysed.Dominates header tail := by
  rw [h.after.count_eq, ← h.before.count_eq] at htail
  rw [dominates_eq_true, h.dominators_ensureDominators]
  exact (h.before.rooted (h.before.entry_eq_zero htail)).mem_solveDominators htail

theorem Recorded.reportsLoop_iff (h : Recorded listing analysed g) :
    g.ReportsLoop tail header ↔ g.Leads tail header ∧ analysed.Dominates header tail := by
  rw [reportsLoop_iff_dominates h.after.indexed]
  exact and_congr_right fun hleads => h.dominates_iff hleads.source_lt

/--
Whatever was built, inserted and analysed before, the exits are those of the listing, and the loops
are the present edges whose headers dominate their tails in the analysed graph. So both are up to
date if no edge was inserted behind a block that led nowhere, and none since the analysis.
-/
theorem derived_of_edited (h : Edited listing analysed g) :
    (∀ id, id ∈ g.exits ↔ (ofListing listing).IsExit id) ∧
      (∀ tail header,
        g.ReportsLoop tail header ↔ g.Leads tail header ∧ analysed.Dominates header tail) ∧
      ((∀ id, (ofListing listing).successors id = [] → g.successors id = []) →
        g.successors = analysed.successors → g.UpToDate) := by
  have hrecorded := h.recorded
  have hentry := hrecorded.after.entry_eq.trans hrecorded.before.entry_eq.symm
  refine ⟨fun id => hrecorded.after.mem_exits, fun tail header => hrecorded.reportsLoop_iff, ?_⟩
  intro hends hsame
  refine ⟨fun id => hrecorded.after.mem_exits_iff_isExit hends, fun tail header => ?_⟩
  rw [hrecorded.reportsLoop_iff]
  exact and_congr_right fun _ =>
    ⟨fun hd => hd.congr hsame.symm hentry.symm, fun hd => hd.congr hsame hentry⟩

/-- A loop whose header has the only way out, to a block that leads nowhere. -/
def waiting : List Instruction :=
  [{ address := 0x0, word := 0, mnemonic := "movi", operands := ["a2", "0x1"] },
    { address := 0x4, word := 0, mnemonic := "beqz", operands := ["a2", "0x10"] },
    { address := 0x8, word := 0, mnemonic := "addi", operands := ["a2", "a2", "0x1"] },
    { address := 0xc, word := 0, mnemonic := "j", operands := ["0x4"] },
    { address := 0x10, word := 0, mnemonic := "movi", operands := ["a3", "0x0"] }]

theorem waiting_upToDate :
    Edited waiting ((ofListing waiting).addEdge 0 2)
        ((ofListing waiting).addEdge 0 2).computeDominators.2 ∧
      ((ofListing waiting).addEdge 0 2).computeDominators.2.UpToDate := by
  have hedited : Edited waiting ((ofListing waiting).addEdge 0 2)
      ((ofListing waiting).addEdge 0 2).computeDominators.2 :=
    .computeDominators
      (@Edited.addEdge _ _ _ 0 2 (.build waiting .empty) (by decide +kernel) (by decide +kernel))
  refine ⟨hedited, (derived_of_edited hedited).2.2 (fun id hnil => ?_) rfl⟩
  by_cases hid : id < 4
  · have hends : ∀ id < 4, (ofListing waiting).successors id = [] →
        ((ofListing waiting).addEdge 0 2).successors id = [] := by decide +kernel
    exact hends id hid hnil
  · exact successors_eq_nil (Nat.not_lt.1 hid)

/-- Edges around the header and behind the last block, inserted when the dominators were there. -/
def rewired : FlowGraph :=
  ((ofListing waiting).computeDominators.2.addEdge 0 2).addEdge 3 1

theorem edited_rewired : Edited waiting (ofListing waiting) rewired := by
  have hne : (ofListing waiting).computeDominators.2.dominators ≠ [] := by
    rw [← List.length_pos_iff]
    exact (extends_ofListing waiting).length_solveDominators ▸ (by decide +kernel)
  have hfirst := @Edited.addEdge _ _ _ 0 2
    (.computeDominators (.build waiting .empty)) (by decide +kernel) (by decide +kernel)
  have hsecond := @Edited.addEdge _ _ _ 3 1 hfirst (by decide +kernel) (by decide +kernel)
  rwa [if_neg (dominators_addEdge 0 2 ▸ hne), if_neg hne] at hsecond

/-- Before the edges are inserted, the tail of the loop is behind its header only. -/
theorem waiting_dominates : (ofListing waiting).Dominates 1 2 := by
  have hentry : (ofListing waiting).entry = some 0 := by decide +kernel
  have hreaches : (ofListing waiting).Reaches 0 2 :=
    .tail (.single (show 1 ∈ (ofListing waiting).successors 0 by decide +kernel))
      (show 2 ∈ (ofListing waiting).successors 1 by decide +kernel)
  have hsource : ∀ a, (ofListing waiting).Leads a 2 → a = 1 := by
    intro a ha
    have hshort : ∀ a < 4, 2 ∈ (ofListing waiting).successors a → a = 1 := by decide +kernel
    exact hshort a ha.source_lt ha
  rw [dominates_iff_of_reaches hentry hreaches]
  intro path hpath
  cases hpath with
  | step hpath hleads => exact List.mem_append_left _ (hsource _ hleads ▸ hpath.mem)

theorem rewired_outdated :
    Edited waiting (ofListing waiting) rewired ∧
      ¬ (∀ id, id ∈ rewired.exits ↔ rewired.IsExit id) ∧
      ¬ ∀ tail header, rewired.ReportsLoop tail header ↔
        rewired.Leads tail header ∧ rewired.Dominates header tail := by
  refine ⟨edited_rewired, fun hexits => ?_, fun hloops => ?_⟩
  · obtain ⟨b, hb, hexit⟩ := isExit_iff.1 ((hexits 3).1 (by decide +kernel))
    have hnot : ¬ (rewired.successors 3 = [] ∨
        (rewired.block? 3).any Block.isReturn = true) := by decide +kernel
    rw [hb, Option.any_some] at hnot
    exact hnot hexit
  · have hedge : rewired.Leads 2 1 := show 1 ∈ rewired.successors 2 by decide +kernel
    have hreports := edited_rewired.recorded.reportsLoop_iff.2 ⟨hedge, waiting_dominates⟩
    have hpath : rewired.Path 0 [0, 2] 2 :=
      .step .start (show 2 ∈ rewired.successors 0 by decide +kernel)
    have hmem := ((hloops 2 1).1 hreports).2.on_path ⟨0, by decide +kernel, hpath.reaches⟩
      0 _ (by decide +kernel) hpath
    exact absurd hmem (by decide)

end FirmwareLift.FlowGraph
