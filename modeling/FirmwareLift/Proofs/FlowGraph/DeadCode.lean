import FirmwareLift.Detection
import FirmwareLift.Proofs.FlowGraph.NaturalLoops

/-!
# Loops and dead code

What the loops of a listing owe to blocks that its entry does not lead to. Such a block makes a loop
only by jumping to itself, and lies in any other loop only by leading into it, so that all else about
the loops is told by the reachable blocks.
-/

namespace FirmwareLift

namespace FlowGraph

section

variable (g : FlowGraph)

/-- A reachable block leads to a block that dominates it. -/
def HasLiveLoop : Prop :=
  ∃ tail header, tail ∈ g.reachable ∧ g.Leads tail header ∧ g.Dominates header tail

/-- A block that cannot be reached leads to itself. -/
def HasDeadLoop : Prop :=
  ∃ id, id ∉ g.reachable ∧ g.Leads id id

/-- A step against an edge that leaves a reachable block, but never from the header. -/
def LivePrecedes (header b a : BlockId) : Prop :=
  b ≠ header ∧ a ∈ g.reachable ∧ g.Leads a b

/--
A loop is a single dead block, or its header dominates what is reachable of its body. That part is
told by reachable edges, and dead blocks belong to the body only if they lead into it.
-/
structure ConfinesLoops (loops : List Loop) : Prop where
  dead_loop : ∀ l ∈ loops, l.header ∉ g.reachable →
    l.tail = l.header ∧ g.Leads l.header l.header ∧ ∀ b, b ∈ l.body ↔ b = l.header
  header_dominates : ∀ l ∈ loops, ∀ b ∈ l.body, b ∈ g.reachable → g.Dominates l.header b
  live_body : ∀ l ∈ loops, ∀ b ∈ g.reachable,
    (b ∈ l.body ↔ b = l.header ∨ Relation.ReflTransGen (g.LivePrecedes l.header) l.tail b)
  dead_body : ∀ l ∈ loops, l.header ∈ g.reachable → ∀ b ∉ g.reachable,
    (b ∈ l.body ↔ ∃ c ∈ l.body, c ≠ l.header ∧ g.Leads b c)
  ne_nil_iff : loops ≠ [] ↔ g.HasLiveLoop ∨ g.HasDeadLoop

end

variable {g : FlowGraph} {listing : List Instruction} {loops : List Loop} {l : Loop}
  {a b header tail : BlockId}

/-! ## Reachable and dead blocks -/

/-- The ends of a back edge are reachable together, as a dead block dominates only itself. -/
theorem Dominates.mem_reachable_iff (h : g.Dominates header tail) (hleads : g.Leads tail header) :
    header ∈ g.reachable ↔ tail ∈ g.reachable := by
  refine ⟨fun hheader => ?_, hleads.mem_reachable⟩
  by_contra htail
  exact htail (h.unreachable htail ▸ hheader)

/-- Against the edges, a path to a reachable block never leaves the reachable blocks. -/
theorem livePrecedes_of_precedes (hg : g.Linked)
    (hpath : Relation.ReflTransGen (g.Precedes header) tail b) (hb : b ∈ g.reachable) :
    Relation.ReflTransGen (g.LivePrecedes header) tail b := by
  induction hpath with
  | refl => exact .refl
  | @tail c a _ hstep ih =>
      have hleads : g.Leads a c := hg.symmetric.2 hstep.2
      exact (ih (hleads.mem_reachable hb)).tail ⟨hstep.1, hb, hleads⟩

theorem precedes_of_livePrecedes (hg : g.Linked)
    (hpath : Relation.ReflTransGen (g.LivePrecedes header) tail b) :
    Relation.ReflTransGen (g.Precedes header) tail b :=
  hpath.lift id fun _ _ hstep => ⟨hstep.1, hg.symmetric.1 hstep.2.2⟩

/-! ## Bodies -/

section

variable (hg : g.Linked)

include hg

theorem mem_loopBody_of_reachable (htail : g.Leads tail header) (hb : b ∈ g.reachable) :
    b ∈ g.loopBody header tail ↔
      b = header ∨ Relation.ReflTransGen (g.LivePrecedes header) tail b := by
  rw [mem_loopBody hg (hg.target_lt htail) htail.source_lt]
  exact or_congr_right
    ⟨fun hpath => livePrecedes_of_precedes hg hpath hb, precedes_of_livePrecedes hg⟩

/-- A block of the body other than its ends is there because it leads to another one. -/
theorem mem_loopBody_of_ne (htail : g.Leads tail header) (hheader : b ≠ header) (hne : b ≠ tail) :
    b ∈ g.loopBody header tail ↔
      ∃ c ∈ g.loopBody header tail, c ≠ header ∧ g.Leads b c := by
  have hmem : ∀ {id}, id ∈ g.loopBody header tail ↔
      id = header ∨ Relation.ReflTransGen (g.Precedes header) tail id :=
    mem_loopBody hg (hg.target_lt htail) htail.source_lt
  constructor
  · intro hb
    have hpath := (hmem.1 hb).resolve_left hheader
    rcases Relation.ReflTransGen.cases_tail hpath with heq | ⟨c, hc, hstep⟩
    · exact absurd heq hne
    · exact ⟨c, hmem.2 (.inr hc), hstep.1, hg.symmetric.2 hstep.2⟩
  · rintro ⟨c, hc, hne, hleads⟩
    have hpath := (hmem.1 hc).resolve_left hne
    exact hmem.2 (.inr (hpath.tail ⟨hne, hg.symmetric.1 hleads⟩))

/-- The body of a loop of one block is that block. -/
theorem mem_loopBody_self (hself : g.Leads header header) :
    b ∈ g.loopBody header header ↔ b = header := by
  rw [mem_loopBody hg (hg.target_lt hself) hself.source_lt]
  refine or_iff_left_of_imp fun hpath => ?_
  rcases Relation.ReflTransGen.cases_head hpath with heq | ⟨c, hstep, -⟩
  · exact heq.symm
  · exact absurd rfl hstep.1

end

/-! ## Loops of a listing -/

/-- A loop that is found goes by an edge to a dominator of its tail, with the body of that edge. -/
theorem mem_loops_ofListing :
    l ∈ ((ofListing listing).detectLoops .dominance).loops ↔
      (ofListing listing).Leads l.tail l.header ∧ (ofListing listing).Dominates l.header l.tail ∧
        l.body = (ofListing listing).loopBody l.header l.tail := by
  have hindexed := indexed_ofListing listing
  have hrecorded := recorded_ofListing listing
  have hblocks : (ofListing listing).ensureDominators.blocks = (ofListing listing).blocks :=
    (detectLoops_frame _ .dominance).1
  have hloops : ((ofListing listing).detectLoops .dominance).loops =
      (ofListing listing).ensureDominators.findLoops .dominance := rfl
  rw [hloops, mem_findLoops, hblocks, loopBody_congr hblocks]
  constructor
  · rintro ⟨b, hb, header, hheader, hback, rfl⟩
    exact ⟨(hindexed.leads_iff hb).2 hheader,
      (hrecorded.dominates_iff (hindexed.id_lt hb)).1 hback, rfl⟩
  · rintro ⟨hleads, hdominates, hbody⟩
    have hback := (hrecorded.dominates_iff hleads.source_lt).2 hdominates
    obtain ⟨b, hb, hid⟩ := hindexed.exists_id_eq hleads.source_lt
    rw [← hid] at hleads hback hbody
    refine ⟨b, hb, l.header, (hindexed.leads_iff hb).1 hleads, hback, ?_⟩
    rw [← hbody, hid]

/-- There is a loop exactly if a reachable edge closes one or a dead block leads to itself. -/
theorem loops_ofListing_ne_nil_iff :
    ((ofListing listing).detectLoops .dominance).loops ≠ [] ↔
      (ofListing listing).HasLiveLoop ∨ (ofListing listing).HasDeadLoop := by
  have hedge : ((ofListing listing).detectLoops .dominance).loops ≠ [] ↔
      ∃ tail header,
        (ofListing listing).Leads tail header ∧ (ofListing listing).Dominates header tail := by
    constructor
    · intro hne
      obtain ⟨l, hl⟩ := List.exists_mem_of_ne_nil _ hne
      obtain ⟨hleads, hdominates, -⟩ := mem_loops_ofListing.1 hl
      exact ⟨l.tail, l.header, hleads, hdominates⟩
    · rintro ⟨tail, header, hleads, hdominates⟩
      have hmem : { header, tail, body := (ofListing listing).loopBody header tail } ∈
          ((ofListing listing).detectLoops .dominance).loops :=
        mem_loops_ofListing.2 ⟨hleads, hdominates, rfl⟩
      exact List.ne_nil_of_mem hmem
  rw [hedge]
  constructor
  · rintro ⟨tail, header, hleads, hdominates⟩
    by_cases htail : tail ∈ (ofListing listing).reachable
    · exact .inl ⟨tail, header, htail, hleads, hdominates⟩
    · obtain rfl := hdominates.unreachable htail
      exact .inr ⟨header, htail, hleads⟩
  · rintro (⟨tail, header, -, hleads, hdominates⟩ | ⟨id, -, hleads⟩)
    · exact ⟨tail, header, hleads, hdominates⟩
    · exact ⟨id, id, hleads, dominates_self id⟩

theorem confinesLoops_ofListing (listing : List Instruction) :
    (ofListing listing).ConfinesLoops ((ofListing listing).detectLoops .dominance).loops where
  dead_loop l hl hdead := by
    obtain ⟨hleads, hdominates, hbody⟩ := mem_loops_ofListing.1 hl
    have hdead' : l.tail ∉ (ofListing listing).reachable :=
      fun htail => hdead ((hdominates.mem_reachable_iff hleads).2 htail)
    have heq : l.header = l.tail := hdominates.unreachable hdead'
    rw [← heq] at hleads hbody
    exact ⟨heq.symm, hleads, fun b => hbody ▸ mem_loopBody_self (linked_ofListing listing) hleads⟩
  header_dominates := by
    have hblocks : (ofListing listing).ensureDominators.blocks = (ofListing listing).blocks :=
      (detectLoops_frame _ .dominance).1
    have hfinds : (ofListing listing).FindsLoops .dominance
        ((ofListing listing).ensureDominators.findLoops .dominance) :=
      (extends_ofListing listing).findsLoops hblocks fun b hb header _ =>
        (recorded_ofListing listing).dominates_iff ((indexed_ofListing listing).id_lt hb)
    exact hfinds.header_dominates rfl
  live_body l hl b hb := by
    obtain ⟨hleads, -, hbody⟩ := mem_loops_ofListing.1 hl
    exact hbody ▸ mem_loopBody_of_reachable (linked_ofListing listing) hleads hb
  dead_body l hl hheader b hb := by
    obtain ⟨hleads, hdominates, hbody⟩ := mem_loops_ofListing.1 hl
    have htail := (hdominates.mem_reachable_iff hleads).1 hheader
    rw [hbody]
    exact mem_loopBody_of_ne (linked_ofListing listing) hleads
      (fun heq => hb (heq ▸ hheader)) (fun heq => hb (heq ▸ htail))
  ne_nil_iff := loops_ofListing_ne_nil_iff

/--
The loops of a listing are those of its reachable blocks, with the dead blocks that lead into them,
and those of dead blocks that lead to themselves. A function that no call creates as a task, but that
calls FreeRTOS, is marked exactly if there is a loop of either kind.
-/
theorem loops_confined (listing : List Instruction) :
    (ofListing listing).ConfinesLoops ((ofListing listing).detectLoops .dominance).loops ∧
      ∀ (f : Routine) (created : CreatedTasks),
        f.graph.loops = ((ofListing listing).detectLoops .dominance).loops →
          created.get? f.start = none →
            ((f.markTask created).isTask = true ↔
              f.isTask = true ∨ f.callsFreeRtos = true ∧
                ((ofListing listing).HasLiveLoop ∨ (ofListing listing).HasDeadLoop)) := by
  refine ⟨confinesLoops_ofListing listing, fun f created hloops hcreated => ?_⟩
  rw [← loops_ofListing_ne_nil_iff, ← hloops, Routine.markTask, hcreated]
  by_cases h : f.graph.loops = [] <;> by_cases hcalls : f.callsFreeRtos = true <;> simp [h, hcalls]

/-- A function that waits once and returns, and behind its return a trap that jumps to itself. -/
def trapped : List Instruction :=
  [{ address := 0x0, word := 0, mnemonic := "call8", operands := ["vTaskDelay"],
      comment := "FreeRTOS API: vTaskDelay" },
    { address := 0x4, word := 0, mnemonic := "ret", operands := [] },
    { address := 0x8, word := 0, mnemonic := "j", operands := ["0x8"] }]

def waitOnce : Routine where
  start := 0x0
  stop := 0xc
  name := "wait_once"
  graph := (ofListing trapped).detectLoops .dominance

theorem trapped_unreachable : 2 ∉ (ofListing trapped).reachable := by
  have hentry : (ofListing trapped).entry = some 0 := by decide +kernel
  rw [mem_reachable hentry]
  intro hreaches
  have hmem : 2 ∈ [0, 1] := hreaches.mem_of_closed (by decide +kernel) (by decide)
  exact absurd hmem (by decide)

/-- The trap makes the function a task. -/
theorem waitOnce_isTask :
    (waitOnce.graph.loops = ((ofListing trapped).detectLoops .dominance).loops ∧
        OrderedMap.get? (.empty : CreatedTasks) waitOnce.start = none) ∧
      (waitOnce.markTask .empty).isTask = true := by
  have hcreated : OrderedMap.get? (.empty : CreatedTasks) waitOnce.start = none := by decide
  have htask := (loops_confined trapped).2 waitOnce .empty rfl hcreated
  have hdead : (ofListing trapped).HasDeadLoop :=
    ⟨2, trapped_unreachable, show 2 ∈ (ofListing trapped).successors 2 by decide +kernel⟩
  exact ⟨⟨rfl, hcreated⟩, htask.2 (.inr ⟨by decide +kernel, .inr hdead⟩)⟩

/-- A loop of two blocks, and behind the return a jump into its second one. -/
def enlarged : List Instruction :=
  [{ address := 0x0, word := 0, mnemonic := "beqz", operands := ["a2", "0xc"] },
    { address := 0x4, word := 0, mnemonic := "addi", operands := ["a2", "a2", "0x1"] },
    { address := 0x8, word := 0, mnemonic := "j", operands := ["0x0"] },
    { address := 0xc, word := 0, mnemonic := "ret", operands := [] },
    { address := 0x10, word := 0, mnemonic := "j", operands := ["0x4"] }]

/-- Dead code makes the only loop of one listing, and belongs to the loop of the other one. -/
theorem dead_code_in_loops :
    (¬ ∀ l ∈ ((ofListing trapped).detectLoops .dominance).loops,
        l.header ∈ (ofListing trapped).reachable) ∧
      ¬ ∀ l ∈ ((ofListing enlarged).detectLoops .dominance).loops, ∀ b ∈ l.body,
        (ofListing enlarged).Dominates l.header b := by
  constructor
  · intro h
    have hleads : (ofListing trapped).Leads 2 2 :=
      show 2 ∈ (ofListing trapped).successors 2 by decide +kernel
    have hloop : { header := 2, tail := 2, body := (ofListing trapped).loopBody 2 2 } ∈
        ((ofListing trapped).detectLoops .dominance).loops :=
      mem_loops_ofListing.2 ⟨hleads, dominates_self 2, rfl⟩
    exact trapped_unreachable (h _ hloop)
  · intro h
    have hentry : (ofListing enlarged).entry = some 0 := by decide +kernel
    have hleads : (ofListing enlarged).Leads 1 0 :=
      show 0 ∈ (ofListing enlarged).successors 1 by decide +kernel
    have hreaches : (ofListing enlarged).Reaches 0 1 :=
      .single (show 1 ∈ (ofListing enlarged).successors 0 by decide +kernel)
    have hloop : { header := 0, tail := 1, body := (ofListing enlarged).loopBody 0 1 } ∈
        ((ofListing enlarged).detectLoops .dominance).loops :=
      mem_loops_ofListing.2 ⟨hleads, dominates_entry hentry hreaches, rfl⟩
    have hdead : 3 ∉ (ofListing enlarged).reachable := by
      rw [mem_reachable hentry]
      intro hreaches
      have hmem : 3 ∈ [0, 1, 2] := hreaches.mem_of_closed (by decide +kernel) (by decide)
      exact absurd hmem (by decide)
    have hbody : 3 ∈ (ofListing enlarged).loopBody 0 1 :=
      (mem_loopBody_of_ne (linked_ofListing enlarged) hleads (by decide) (by decide)).2
        ⟨1, (encloses_loopBody (linked_ofListing enlarged) (by decide +kernel)
          (by decide +kernel)).tail_mem, by decide,
          show 1 ∈ (ofListing enlarged).successors 3 by decide +kernel⟩
    have heq := (h _ hloop 3 hbody).unreachable hdead
    exact absurd heq (by decide)

end FlowGraph

end FirmwareLift
