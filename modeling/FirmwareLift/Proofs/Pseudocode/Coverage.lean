import FirmwareLift.Proofs.Pseudocode.Ending
import FirmwareLift.Proofs.Pseudocode.Partition
import Mathlib.Data.List.Forall2

/-!
# Coverage of the walk

The walk over the graph of a listing writes the body of every block that can be reached from the
entry, each of them once and no other. Every edge between them leads it to a block, so it comes back
to one along every edge but those along which it came first, and then it only names the block.
-/

namespace FirmwareLift

/-- The block that is written at a visit. -/
def Visit.written? : Visit → Option Block
  | .first b _ => some b
  | .again _ _ | .line _ => none

def Visit.isAgain : Visit → Bool
  | .again _ _ => true
  | .first _ _ | .line _ => false

def written (visits : List Visit) : List Block :=
  visits.filterMap Visit.written?

/--
What is written at a visit. A first visit writes the statements of the parts of the body, and the
lines of the ending behind them; a later one only names the place of the block.
-/
inductive Visit.Writes (g : FlowGraph) (library : IdiomLibrary) (returnsValue : Bool) :
    Visit → List Line → Prop where
  | first {b : Block} {body : List Instruction} {run : List Stretch} (depth : Nat) :
      body ++ b.control?.toList = b.instructions → library.Partitions body run →
        Writes g library returnsValue (.first b depth)
          ((run.filterMap (·.statement) ++ (Ending.ofBlock g b).texts returnsValue).map
            (Line.mk depth))
  | again (b : Block) (depth : Nat) :
      Writes g library returnsValue (.again b depth)
        [⟨depth, s!"// continues at {Text.Numeral.hex8 b.start}"⟩]
  | bound {line : Line} : line.IsBound → Writes g library returnsValue (.line line) [line]

def pendingBlocks (pending : List Pending) : List BlockId :=
  pending.filterMap Pending.block?

section

variable {b : Block} {id : BlockId} {depth : Nat} {line : Line} {visits : List Visit}
  {pending : List Pending}

@[simp] theorem written_first : written (.first b depth :: visits) = b :: written visits := rfl

@[simp] theorem written_again : written (.again b depth :: visits) = written visits := rfl

@[simp] theorem written_line : written (.line line :: visits) = written visits := rfl

@[simp] theorem pendingBlocks_block :
    pendingBlocks (.block id depth :: pending) = id :: pendingBlocks pending := rfl

end

namespace FlowGraph

/-- The visits write the reachable blocks and no others, come back to written blocks, and end. -/
structure Covers (g : FlowGraph) (visits : List Visit) : Prop where
  nodup : (written visits).Nodup
  mem_iff : ∀ b, b ∈ written visits ↔ b ∈ g.blocks ∧ b.id ∈ g.reachable
  written_before : ∀ {front back : List Visit} {b : Block} {depth : Nat},
    visits = front ++ .again b depth :: back → b ∈ written front
  again_count : visits.countP Visit.isAgain + g.reachable.ncard = g.reachableEdges.ncard + 1
  length_le : visits.length ≤ 4 * g.reachable.ncard + 1

variable {listing : List Instruction} {seen : OrderedSet BlockId} {pending : List Pending}

theorem pendingBlocks_ofBlock {b : Block} {id : BlockId}
    (hb : (ofListing listing).block? id = some b) (depth : Nat) (rest : List Pending) :
    pendingBlocks ((Ending.ofBlock (ofListing listing) b).pending depth ++ rest) =
      (ofListing listing).successors id ++ pendingBlocks rest := by
  rw [pendingBlocks, List.filterMap_append, blocks_pending_ofBlock hb, successors, hb]
  rfl

/-! ## What a walk writes -/

theorem block?_of_mem_written {b : Block}
    (h : b ∈ written ((ofListing listing).walk seen pending)) :
    (ofListing listing).block? b.id = some b ∧ ¬ b.id ∈ seen := by
  fun_induction FlowGraph.walk (ofListing listing) seen pending with
  | case1 => simp [written] at h
  | case2 seen line rest ih => exact ih h
  | case3 seen id depth rest hb ih => exact ih h
  | case4 seen id depth rest b' hb hseen ih => exact ih h
  | case5 seen id depth rest b' hb hseen _ _ ih =>
      rcases List.mem_cons.1 h with rfl | h
      · rw [indexed_ofListing listing id b hb]
        exact ⟨hb, hseen⟩
      · obtain ⟨hb, hnew⟩ := ih h
        exact ⟨hb, fun hold => hnew (OrderedSet.mem_insert.2 (.inr hold))⟩

theorem nodup_ids_written (seen : OrderedSet BlockId) (pending : List Pending) :
    ((written ((ofListing listing).walk seen pending)).map (·.id)).Nodup := by
  fun_induction FlowGraph.walk (ofListing listing) seen pending with
  | case1 => exact List.nodup_nil
  | case2 seen line rest ih => exact ih
  | case3 seen id depth rest hb ih => exact ih
  | case4 seen id depth rest b hb hseen ih => exact ih
  | case5 seen id depth rest b hb hseen _ _ ih =>
      refine List.nodup_cons.2 ⟨fun h => ?_, ih⟩
      obtain ⟨b', hb', heq : b'.id = b.id⟩ := List.mem_map.1 h
      apply (block?_of_mem_written hb').2
      rw [heq, indexed_ofListing listing id b hb]
      exact OrderedSet.mem_insert.2 (.inl rfl)

/-- What is written can be reached from what was pending. -/
theorem exists_reaches_of_mem_written {b : Block}
    (h : b ∈ written ((ofListing listing).walk seen pending)) :
    ∃ id ∈ pendingBlocks pending, (ofListing listing).Reaches id b.id := by
  fun_induction FlowGraph.walk (ofListing listing) seen pending with
  | case1 => simp [written] at h
  | case2 seen line rest ih => exact ih h
  | case3 seen id depth rest hb ih =>
      obtain ⟨source, hsource, hpath⟩ := ih h
      exact ⟨source, List.mem_cons_of_mem _ hsource, hpath⟩
  | case4 seen id depth rest b' hb hseen ih =>
      obtain ⟨source, hsource, hpath⟩ := ih h
      exact ⟨source, List.mem_cons_of_mem _ hsource, hpath⟩
  | case5 seen id depth rest b' hb hseen _ _ ih =>
      rcases List.mem_cons.1 h with rfl | h
      · rw [indexed_ofListing listing id b hb]
        exact ⟨id, List.mem_cons_self, .refl⟩
      · obtain ⟨source, hsource, hpath⟩ := ih h
        rw [pendingBlocks_ofBlock hb, List.mem_append] at hsource
        rcases hsource with hsource | hsource
        · exact ⟨id, List.mem_cons_self, .head hsource hpath⟩
        · exact ⟨source, List.mem_cons_of_mem _ hsource, hpath⟩

/-- A walk comes back to what was met before it, or to what it has written. -/
theorem mem_of_again {front back : List Visit} {b : Block} {depth : Nat}
    (h : (ofListing listing).walk seen pending = front ++ .again b depth :: back) :
    (ofListing listing).block? b.id = some b ∧ (b.id ∈ seen ∨ b ∈ written front) := by
  fun_induction FlowGraph.walk (ofListing listing) seen pending generalizing front with
  | case1 => cases front <;> cases h
  | case2 seen line rest ih =>
      cases front with
      | nil => cases h
      | cons visit front =>
          obtain ⟨rfl, hback⟩ := List.cons.inj h
          rw [written_line]
          exact ih hback
  | case3 seen id depth' rest hb ih => exact ih h
  | case4 seen id depth' rest b' hb hseen ih =>
      cases front with
      | nil =>
          obtain ⟨heq, -⟩ := List.cons.inj h
          cases heq
          rw [indexed_ofListing listing id b hb]
          exact ⟨hb, .inl hseen⟩
      | cons visit front =>
          obtain ⟨rfl, hback⟩ := List.cons.inj h
          rw [written_again]
          exact ih hback
  | case5 seen id depth' rest b' hb hseen _ _ ih =>
      cases front with
      | nil => cases h
      | cons visit front =>
          obtain ⟨rfl, hback⟩ := List.cons.inj h
          obtain ⟨hblock, hmet⟩ := ih hback
          refine ⟨hblock, ?_⟩
          rw [written_first]
          rcases hmet with hmet | hmet
          · rcases OrderedSet.mem_insert.1 hmet with heq | hmet
            · rw [heq, hb] at hblock
              exact .inr (Option.some.inj hblock ▸ List.mem_cons_self)
            · exact .inl hmet
          · exact .inr (List.mem_cons_of_mem _ hmet)

/-- The blocks that a walk has met when it ends. -/
def Met (seen : OrderedSet BlockId) (visits : List Visit) (id : BlockId) : Prop :=
  id ∈ seen ∨ id ∈ (written visits).map (·.id)

theorem met_first_iff {b : Block} {depth : Nat} {visits : List Visit} {id : BlockId} :
    Met seen (.first b depth :: visits) id ↔ Met (seen.insert b.id) visits id := by
  show id ∈ seen ∨ id ∈ b.id :: (written visits).map (·.id) ↔ _
  rw [Met, OrderedSet.mem_insert, List.mem_cons, or_assoc, or_left_comm]

theorem met_of_mem_pending {id : BlockId} {b : Block}
    (hb : (ofListing listing).block? id = some b) (hid : id ∈ pendingBlocks pending) :
    Met seen ((ofListing listing).walk seen pending) id := by
  fun_induction FlowGraph.walk (ofListing listing) seen pending with
  | case1 => simp [pendingBlocks] at hid
  | case2 seen line rest ih => exact ih hid
  | case3 seen id' depth rest hb' ih =>
      rcases List.mem_cons.1 hid with rfl | hid
      · simp [hb] at hb'
      · exact ih hid
  | case4 seen id' depth rest b' hb' hseen ih =>
      rcases List.mem_cons.1 hid with rfl | hid
      · exact .inl hseen
      · exact ih hid
  | case5 seen id' depth rest b' hb' hseen _ _ ih =>
      rw [met_first_iff, indexed_ofListing listing id' b' hb']
      rcases List.mem_cons.1 hid with rfl | hid
      · exact .inl (OrderedSet.mem_insert.2 (.inl rfl))
      · apply ih
        rw [pendingBlocks_ofBlock hb']
        exact List.mem_append_right _ hid

theorem met_of_leads {a id : BlockId}
    (ha : a ∈ (written ((ofListing listing).walk seen pending)).map (·.id))
    (h : (ofListing listing).Leads a id) : Met seen ((ofListing listing).walk seen pending) id := by
  fun_induction FlowGraph.walk (ofListing listing) seen pending with
  | case1 => simp [written] at ha
  | case2 seen line rest ih => exact ih ha
  | case3 seen id' depth rest hb ih => exact ih ha
  | case4 seen id' depth rest b hb hseen ih => exact ih ha
  | case5 seen id' depth rest b hb hseen _ _ ih =>
      rw [met_first_iff, indexed_ofListing listing id' b hb]
      rcases List.mem_cons.1 ha with rfl | ha
      · obtain ⟨target, htarget⟩ := exists_block?_of_mem_successors h
        apply met_of_mem_pending htarget
        rw [pendingBlocks_ofBlock hb]
        apply List.mem_append_left
        rwa [← indexed_ofListing listing id' b hb]
      · exact ih ha

/-! ## How often a walk comes back -/

/-- Every block that is pending and every edge that leaves a written block leads to a visit. -/
theorem countP_isAgain_walk (seen : OrderedSet BlockId)
    (hpending : ∀ id ∈ pendingBlocks pending, ∃ b, (ofListing listing).block? id = some b) :
    ((ofListing listing).walk seen pending).countP Visit.isAgain +
        (written ((ofListing listing).walk seen pending)).length =
      (pendingBlocks pending).length +
        (((written ((ofListing listing).walk seen pending)).map (·.id)).flatMap
          (ofListing listing).successors).length := by
  -- A visit uses up one pending block; a first visit puts its successors in the place of it.
  fun_induction FlowGraph.walk (ofListing listing) seen pending with
  | case1 => rfl
  | case2 seen line rest ih =>
      exact ih hpending
  | case3 seen id depth rest hb ih =>
      obtain ⟨b, hb'⟩ := hpending id List.mem_cons_self
      simp [hb] at hb'
  | case4 seen id depth rest b hb hseen ih =>
      have ih := ih fun x hx => hpending x (List.mem_cons_of_mem _ hx)
      rw [List.countP_cons_of_pos rfl, written_again, pendingBlocks_block, List.length_cons]
      omega
  | case5 seen id depth rest b hb hseen _ _ ih =>
      rw [pendingBlocks_ofBlock hb] at ih
      have ih := ih fun x hx => by
        rcases List.mem_append.1 hx with hx | hx
        · exact exists_block?_of_mem_successors hx
        · exact hpending x (List.mem_cons_of_mem _ hx)
      rw [List.length_append] at ih
      rw [List.countP_cons_of_neg (by simp [Visit.isAgain]), written_first, pendingBlocks_block,
        List.map_cons, List.flatMap_cons, indexed_ofListing listing id b hb]
      simp only [List.length_cons, List.length_append]
      omega

theorem length_walk_le (seen : OrderedSet BlockId) (pending : List Pending) :
    ((ofListing listing).walk seen pending).length ≤
      pending.length + 4 * (written ((ofListing listing).walk seen pending)).length := by
  fun_induction FlowGraph.walk (ofListing listing) seen pending with
  | case1 => exact Nat.le_refl 0
  | case2 seen line rest ih =>
      simp only [written_line, List.length_cons]
      omega
  | case3 seen id depth rest hb ih =>
      simp only [List.length_cons]
      omega
  | case4 seen id depth rest b hb hseen ih =>
      simp only [written_again, List.length_cons]
      omega
  | case5 seen id depth rest b hb hseen _ _ ih =>
      have hpending := (Ending.ofBlock (ofListing listing) b).length_pending_le depth
      rw [List.length_append] at ih
      simp only [written_first, List.length_cons]
      omega

/-! ## The whole walk -/

theorem entry_ofListing (h : listing ≠ []) :
    (ofListing listing).entry = some 0 ∧ ∃ b, (ofListing listing).block? 0 = some b := by
  have hentry : (ofListing listing).entry =
      if (ofListing listing).isEmpty then none else some 0 := rfl
  have hinstructions : (ofListing listing).instructions = listing := instructions_ofListing
  rw [instructions] at hinstructions
  rw [hentry, isEmpty, block?]
  cases hblocks : (ofListing listing).blocks with
  | nil =>
      rw [hblocks] at hinstructions
      exact absurd hinstructions.symm h
  | cons b rest => exact ⟨rfl, b, rfl⟩

theorem visits_ofListing (h : listing ≠ []) (base : Nat) :
    (ofListing listing).visits base = (ofListing listing).walk .empty [.block 0 base] := by
  rw [visits, (entry_ofListing h).1]
  rfl

theorem mem_ids_written_iff (h : listing ≠ []) (base : Nat) (id : BlockId) :
    id ∈ (written ((ofListing listing).visits base)).map (·.id) ↔
      id ∈ (ofListing listing).reachable := by
  obtain ⟨hentry, b, hb⟩ := entry_ofListing h
  have hmet : ∀ {x}, Met .empty ((ofListing listing).visits base) x →
      x ∈ (written ((ofListing listing).visits base)).map (·.id) :=
    fun hx => hx.resolve_left OrderedSet.mem_empty
  constructor
  · intro hid
    obtain ⟨b', hb', rfl⟩ := List.mem_map.1 hid
    rw [visits_ofListing h] at hb'
    obtain ⟨source, hsource, hpath⟩ := exists_reaches_of_mem_written hb'
    obtain rfl : source = 0 := List.mem_singleton.1 hsource
    exact ⟨0, hentry, hpath⟩
  · rintro ⟨entry, hentry', hpath⟩
    obtain rfl : 0 = entry := Option.some.inj (hentry.symm.trans hentry')
    apply hpath.mem_of_closed
    · intro x hx y hxy
      apply hmet
      rw [visits_ofListing h] at hx ⊢
      exact met_of_leads hx hxy
    · apply hmet
      rw [visits_ofListing h]
      exact met_of_mem_pending hb List.mem_cons_self

theorem covers_visits (h : listing ≠ []) (base : Nat) :
    (ofListing listing).Covers ((ofListing listing).visits base) := by
  have hmem := mem_ids_written_iff h base
  have hnodup : ((written ((ofListing listing).visits base)).map (·.id)).Nodup :=
    nodup_ids_written _ _
  have hreachable := ncard_eq_length hnodup hmem
  have hedges := ncard_reachableEdges hnodup hmem nodup_successors_ofListing
  rw [List.length_map] at hreachable
  constructor
  · exact List.Nodup.of_map _ hnodup
  · intro b
    rw [← hmem]
    constructor
    · intro hb
      obtain ⟨hblock, -⟩ := block?_of_mem_written hb
      exact ⟨List.mem_of_getElem? hblock, List.mem_map_of_mem hb⟩
    · rintro ⟨hb, hid⟩
      obtain ⟨i, hi⟩ := List.mem_iff_getElem?.1 hb
      obtain ⟨b', hb', heq⟩ := List.mem_map.1 hid
      have hblock := (block?_of_mem_written hb').1
      rw [heq, indexed_ofListing listing i b hi, block?, hi] at hblock
      exact Option.some.inj hblock ▸ hb'
  · intro front back b depth hagain
    rw [visits_ofListing h] at hagain
    exact (mem_of_again hagain).2.resolve_left OrderedSet.mem_empty
  · have hpending : ∀ id ∈ pendingBlocks [.block 0 base],
        ∃ b, (ofListing listing).block? id = some b := by
      intro id hid
      obtain rfl : id = 0 := List.mem_singleton.1 hid
      exact (entry_ofListing h).2
    have hcount := countP_isAgain_walk .empty hpending
    rw [← visits_ofListing h base, ← hedges, ← hreachable] at hcount
    rw [hcount, Nat.add_comm]
    rfl
  · have hlength : ((ofListing listing).walk .empty [.block 0 base]).length ≤ _ :=
      length_walk_le _ _
    rw [← visits_ofListing h base, ← hreachable, Nat.add_comm] at hlength
    exact hlength

theorem writes_of_mem_visits {g : FlowGraph} {base : Nat} {visit : Visit}
    (h : visit ∈ g.visits base) (library : IdiomLibrary) (returnsValue : Bool) :
    visit.Writes g library returnsValue (visit.lines g library returnsValue) := by
  cases visit with
  | first b depth => exact .first depth b.body_append_control? (library.partitions_stretches b.body)
  | again b depth => exact .again b depth
  | line line => exact .bound (isBound_of_mem_visits h)

/--
The lines are what the visits write, one after the other: every reachable block with its body once,
no other block, and a line for every time that the walk comes back.
-/
theorem lines_cover (h : listing ≠ []) (library : IdiomLibrary) (returnsValue : Bool) (base : Nat) :
    ∃ parts : List (List Line),
      List.Forall₂ (Visit.Writes (ofListing listing) library returnsValue)
          ((ofListing listing).visits base) parts ∧
        (ofListing listing).lines library returnsValue base = parts.flatten ∧
          (ofListing listing).Covers ((ofListing listing).visits base) := by
  refine ⟨((ofListing listing).visits base).map
    (Visit.lines (ofListing listing) library returnsValue), ?_, ?_, covers_visits h base⟩
  · rw [List.forall₂_map_right_iff, List.forall₂_same]
    exact fun visit hvisit => writes_of_mem_visits hvisit library returnsValue
  · rw [lines, (entry_ofListing h).1, ← List.flatMap_def]
    rfl

/-- A loop that is entered in two places and left for another loop. -/
def sharedLoop : List Instruction :=
  [{ address := 0x0, word := 0, mnemonic := "beq", operands := ["a2", "a3", "0x8"] },
    { address := 0x4, word := 0, mnemonic := "addi", operands := ["a2", "a2", "1"] },
    { address := 0x8, word := 0, mnemonic := "bnez", operands := ["a2", "0x4"] },
    { address := 0xc, word := 0, mnemonic := "j", operands := ["0xc"] }]

theorem sharedLoop_covered :
    sharedLoop ≠ [] ∧
      (written ((ofListing sharedLoop).visits 1)).map (·.id) = [0, 2, 1, 3] ∧
      ((ofListing sharedLoop).visits 1).countP Visit.isAgain = 3 ∧
      (ofListing sharedLoop).lines .common true 1 =
        [⟨1, "if (a2 == a3) \x7b"⟩, ⟨2, "if (a2 != 0) \x7b"⟩, ⟨3, "a2 = a2 + 1;"⟩,
          ⟨3, "// continues at 0x00000008"⟩, ⟨2, "\x7d else \x7b"⟩, ⟨3, "while (true) \x7b"⟩,
          ⟨4, "// continues at 0x0000000c"⟩, ⟨3, "\x7d"⟩, ⟨2, "\x7d"⟩, ⟨1, "\x7d else \x7b"⟩,
          ⟨2, "// continues at 0x00000004"⟩, ⟨1, "\x7d"⟩] ∧
      ∃ parts : List (List Line),
        List.Forall₂ (Visit.Writes (ofListing sharedLoop) .common true)
            ((ofListing sharedLoop).visits 1) parts ∧
          (ofListing sharedLoop).lines .common true 1 = parts.flatten ∧
            (ofListing sharedLoop).Covers ((ofListing sharedLoop).visits 1) :=
  ⟨List.cons_ne_nil _ _, by decide +kernel, by decide +kernel, by decide +kernel,
    lines_cover (List.cons_ne_nil _ _) .common true 1⟩

end FlowGraph

end FirmwareLift
