import FirmwareLift.Proofs.FixedPoint
import FirmwareLift.Proofs.FlowGraph.Dominance
import FirmwareLift.Proofs.FlowGraph.Editing
import FirmwareLift.Proofs.FlowGraph.Flood
import FirmwareLift.Proofs.OrderedSet
import Mathlib.Algebra.Order.BigOperators.Group.Finset

/-!
# Computed dominators

The passes that compute dominators start from sets that are too large. They only take blocks out,
never a block that dominates, and where they come to rest, no other block is left.
-/

namespace FirmwareLift.FlowGraph

structure Rooted (g : FlowGraph) (entry : BlockId) : Prop extends Linked g where
  entry_eq : g.entry = some entry
  entry_lt : entry < g.count

def setOf (sets : List (OrderedSet BlockId)) (id : BlockId) : OrderedSet BlockId :=
  sets[id]?.getD .empty

section

variable (g : FlowGraph) (entry : BlockId)

/-- What a pass puts in place of the set of a block. -/
def fromPredecessors (sets : List (OrderedSet BlockId)) (id : BlockId) : OrderedSet BlockId :=
  g.dominatorsFromPredecessors (g.reachableFrom entry) sets id

def visitDominators (sets : List (OrderedSet BlockId)) (id : BlockId) : List (OrderedSet BlockId) :=
  sets.set id (g.fromPredecessors entry sets id)

/-- Sets on the way down: no dominator is missing, and a visit can only take blocks out. -/
structure Descending (sets : List (OrderedSet BlockId)) : Prop where
  length_eq : sets.length = g.count
  member_lt : ∀ id, ∀ a ∈ setOf sets id, a < g.count
  own : ∀ id < g.count, id ∉ g.refinedBlocks entry → setOf sets id = .singleton id
  above : ∀ id ∈ g.refinedBlocks entry, g.fromPredecessors entry sets id ⊆ setOf sets id
  sound : ∀ id < g.count, ∀ a, g.Dominates a id → a ∈ setOf sets id

/-- A sequence of sets on the way down, each of them within what visits make of the one before. -/
structure Narrowing (t : Nat → List (OrderedSet BlockId)) : Prop where
  descending : ∀ n, g.Descending entry (t n)
  step : ∀ n, ∀ id ∈ g.refinedBlocks entry,
    setOf (t (n + 1)) id ⊆ g.fromPredecessors entry (t n) id

end

variable {g : FlowGraph} {entry id a b : BlockId} {sets lower : List (OrderedSet BlockId)}
  {ids : List BlockId}

/-! ## Sets -/

theorem setOf_set (hid : id < sets.length) (s : OrderedSet BlockId) (other : BlockId) :
    setOf (sets.set id s) other = if other = id then s else setOf sets other := by
  simp only [setOf, List.getElem?_set, eq_comm (a := id), hid]
  split <;> rfl

theorem eq_of_setOf_eq (hlength : sets.length = lower.length)
    (h : ∀ id, setOf sets id = setOf lower id) : sets = lower := by
  apply List.ext_getElem hlength
  intro id hl hm
  simpa [setOf, hl, hm] using h id

theorem mem_interAll {s : List (OrderedSet BlockId)} :
    a ∈ interAll s ↔ s ≠ [] ∧ ∀ t ∈ s, a ∈ t := by
  have hfold : ∀ (rest : List (OrderedSet BlockId)) (first : OrderedSet BlockId),
      a ∈ rest.foldl .inter first ↔ a ∈ first ∧ ∀ t ∈ rest, a ∈ t := by
    intro rest
    induction rest with
    | nil => simp
    | cons t rest ih =>
        intro first
        simp only [List.foldl_cons, ih, OrderedSet.mem_inter, and_assoc, List.forall_mem_cons]
  cases s with
  | nil => simp [interAll]
  | cons first rest => simp [interAll, hfold]

namespace Rooted

variable (hg : g.Rooted entry)

include hg

theorem mem_reachableFrom : id ∈ g.reachableFrom entry ↔ g.Reaches entry id :=
  FlowGraph.mem_reachableFrom (fun _ _ => hg.target_lt) hg.entry_lt

theorem mem_refinedBlocks : id ∈ g.refinedBlocks entry ↔ g.Reaches entry id ∧ id ≠ entry := by
  rw [refinedBlocks, OrderedSet.mem_filter, hg.mem_reachableFrom, decide_eq_true_eq]

theorem lt_of_reaches (h : g.Reaches entry id) : id < g.count :=
  hg.toLinked.lt_of_reaches hg.entry_lt h

theorem mem_fromPredecessors :
    a ∈ g.fromPredecessors entry sets id ↔
      a = id ∨ (∃ p, g.Reaches entry p ∧ g.Leads p id) ∧
        ∀ p, g.Reaches entry p → g.Leads p id → a ∈ setOf sets p := by
  have hsources : ∀ p, p ∈ (g.predecessors id).filter (fun p => p ∈ g.reachableFrom entry) ↔
      g.Reaches entry p ∧ g.Leads p id := by
    intro p
    rw [List.mem_filter, decide_eq_true_eq, hg.mem_reachableFrom, ← hg.symmetric, and_comm]
    rfl
  rw [fromPredecessors, dominatorsFromPredecessors, OrderedSet.mem_insert, mem_interAll,
    ne_eq, List.map_eq_nil_iff, List.eq_nil_iff_forall_not_mem]
  simp only [List.forall_mem_map, hsources, not_forall, not_not, and_imp]
  rfl

theorem fromPredecessors_mono (h : ∀ id, setOf lower id ⊆ setOf sets id) (id : BlockId) :
    g.fromPredecessors entry lower id ⊆ g.fromPredecessors entry sets id := by
  intro a ha
  rw [hg.mem_fromPredecessors] at ha ⊢
  exact ha.imp_right fun ⟨hexists, hall⟩ =>
    ⟨hexists, fun p hp hleads => h p a (hall p hp hleads)⟩

/-- What dominates a block is not lost when the set of the block is computed anew. -/
theorem mem_fromPredecessors_of_dominates (hsets : g.Descending entry sets)
    (hid : id ∈ g.refinedBlocks entry) (h : g.Dominates a id) :
    a ∈ g.fromPredecessors entry sets id := by
  obtain ⟨hreaches, hne⟩ := hg.mem_refinedBlocks.1 hid
  rw [hg.mem_fromPredecessors]
  by_cases ha : a = id
  · exact .inl ha
  · refine .inr ⟨?_, fun p hp hleads =>
      hsets.sound p (hg.lt_of_reaches hp) a (h.of_leads hg.entry_eq hp hleads ha)⟩
    rcases Relation.ReflTransGen.cases_tail hreaches with heq | hlast
    · exact absurd heq hne
    · exact hlast

end Rooted

/-! ## Visits -/

namespace Descending

theorem setOf_visit (h : g.Descending entry sets) (hg : g.Rooted entry)
    (hid : id ∈ g.refinedBlocks entry) (other : BlockId) :
    setOf (g.visitDominators entry sets id) other =
      if other = id then g.fromPredecessors entry sets id else setOf sets other := by
  rw [visitDominators, setOf_set]
  rw [h.length_eq]
  exact hg.lt_of_reaches (hg.mem_refinedBlocks.1 hid).1

theorem visit_le (h : g.Descending entry sets) (hg : g.Rooted entry)
    (hid : id ∈ g.refinedBlocks entry) (other : BlockId) :
    setOf (g.visitDominators entry sets id) other ⊆ setOf sets other := by
  rw [h.setOf_visit hg hid]
  split
  · next heq => exact heq ▸ h.above id hid
  · exact fun _ ha => ha

theorem visit (h : g.Descending entry sets) (hg : g.Rooted entry)
    (hid : id ∈ g.refinedBlocks entry) : g.Descending entry (g.visitDominators entry sets id) where
  length_eq := List.length_set.trans h.length_eq
  member_lt other a ha := h.member_lt other a (h.visit_le hg hid other a ha)
  own other hother hown := by
    have hne : other ≠ id := by
      rintro rfl
      exact hown hid
    rw [h.setOf_visit hg hid, if_neg hne, h.own other hother hown]
  above other hother := by
    -- The sets have shrunk, and with them what a visit would put in their place.
    have hmono := hg.fromPredecessors_mono (h.visit_le hg hid) other
    rw [h.setOf_visit hg hid]
    split
    · next heq => exact fun a ha => heq ▸ hmono a ha
    · exact fun a ha => h.above other hother a (hmono a ha)
  sound other hother a ha := by
    rw [h.setOf_visit hg hid]
    split
    · next heq => exact hg.mem_fromPredecessors_of_dominates h hid (heq ▸ ha)
    · exact h.sound other hother a ha

theorem eq_of_le_of_le (h : g.Descending entry sets) (hlower : g.Descending entry lower)
    (hle : ∀ id, setOf lower id ⊆ setOf sets id) (hge : ∀ id, setOf sets id ⊆ setOf lower id) :
    sets = lower :=
  eq_of_setOf_eq (h.length_eq.trans hlower.length_eq.symm) fun id =>
    OrderedSet.ext fun a => ⟨hge id a, hle id a⟩

theorem oneWay (hg : g.Rooted entry) :
    OneWay (g.Descending entry) (fun sets lower => ∀ id, setOf lower id ⊆ setOf sets id)
      (g.visitDominators entry) (g.refinedBlocks entry).toList where
  refl _ _ _ ha := ha
  trans _ _ _ hle hle' id a ha := hle id a (hle' id a ha)
  antisymm _ _ h hlower := h.eq_of_le_of_le hlower
  keeps _ h _ hid := h.visit hg hid
  moves _ h _ hid := h.visit_le hg hid

/-- Where a pass changes nothing, the set of every block is what a visit would put in its place. -/
theorem fromPredecessors_eq (h : g.Descending entry sets) (hg : g.Rooted entry)
    (hidle : (g.refinedBlocks entry).toList.foldl (g.visitDominators entry) sets = sets)
    (hid : id ∈ g.refinedBlocks entry) : g.fromPredecessors entry sets id = setOf sets id := by
  have hset := h.setOf_visit hg hid id
  rw [(oneWay hg).visit_eq h hidle id hid, if_pos rfl] at hset
  exact hset.symm

/-! ## Rest -/

/-- How many blocks have been taken out of the sets. -/
def weight (g : FlowGraph) (sets : List (OrderedSet BlockId)) : Nat :=
  ∑ id ∈ Finset.range g.count, (g.count - (setOf sets id).size)

theorem size_le (h : g.Descending entry sets) (id : BlockId) : (setOf sets id).size ≤ g.count := by
  rw [← List.length_range (n := g.count)]
  exact OrderedSet.size_le_length fun a ha => List.mem_range.2 (h.member_lt id a ha)

theorem setOf_of_le (h : g.Descending entry sets) (hid : g.count ≤ id) : setOf sets id = .empty := by
  rw [setOf, List.getElem?_eq_none (h.length_eq.trans_le hid)]
  rfl

theorem weight_lt (h : g.Descending entry sets) (hlower : g.Descending entry lower)
    (hle : ∀ id, setOf lower id ⊆ setOf sets id) (hne : lower ≠ sets) :
    weight g sets < weight g lower := by
  have hsizes : ∀ id, (setOf lower id).size ≤ (setOf sets id).size :=
    fun id => OrderedSet.size_le_size (hle id)
  refine Finset.sum_lt_sum (fun id _ => Nat.sub_le_sub_left (hsizes id) _) ?_
  by_contra hnone
  refine hne (h.eq_of_le_of_le hlower hle fun id => ?_).symm
  by_cases hid : id < g.count
  · have hsize := hsizes id
    have hbound := h.size_le id
    have hnot : ¬ g.count - (setOf sets id).size < g.count - (setOf lower id).size :=
      fun hlt => hnone ⟨id, Finset.mem_range.2 hid, hlt⟩
    rw [OrderedSet.eq_of_subset_of_size_le (hle id) (by omega)]
    exact fun _ ha => ha
  · rw [h.setOf_of_le (Nat.not_lt.1 hid)]
    exact fun _ ha => absurd ha OrderedSet.mem_empty

theorem weight_le (g : FlowGraph) (sets : List (OrderedSet BlockId)) :
    weight g sets ≤ g.count * g.count := by
  have hsum : weight g sets ≤ ∑ _id ∈ Finset.range g.count, g.count :=
    Finset.sum_le_sum fun id _ => Nat.sub_le _ _
  rwa [Finset.sum_const_nat fun _ _ => rfl, Finset.card_range] at hsum

theorem narrowing (h : g.Descending entry sets) (hg : g.Rooted entry)
    (hidle : (g.refinedBlocks entry).toList.foldl (g.visitDominators entry) sets = sets) :
    g.Narrowing entry fun _ => sets where
  descending _ := h
  step _ id hid a ha := by rwa [h.fromPredecessors_eq hg hidle hid]

end Descending

/-- Every edge of a path takes one of the sets in sequence, which has lost what is off the path. -/
theorem Narrowing.mem_path {t : Nat → List (OrderedSet BlockId)} (h : g.Narrowing entry t)
    (hg : g.Rooted entry) {path : List BlockId} {n : Nat} (hpath : g.Path entry path b)
    (hn : path.length ≤ n + 1) (ha : a ∈ setOf (t n) b) : a ∈ path := by
  induction hpath generalizing n with
  | start =>
      have hentry : entry ∉ g.refinedBlocks entry := fun hmem => (hg.mem_refinedBlocks.1 hmem).2 rfl
      rw [(h.descending n).own entry hg.entry_lt hentry, OrderedSet.mem_singleton] at ha
      exact ha ▸ List.mem_singleton_self _
  | @step path x y hpath hleads ih =>
      by_cases hy : y ∈ g.refinedBlocks entry
      · -- A member is the block itself or was in the sets of all blocks in front of it.
        have hpositive := List.length_pos_of_mem hpath.mem
        rw [List.length_append, List.length_singleton] at hn
        obtain ⟨n, rfl⟩ := Nat.exists_eq_add_of_le' (Nat.lt_of_lt_of_le hpositive
          (Nat.le_of_succ_le_succ hn))
        rcases hg.mem_fromPredecessors.1 (h.step n y hy a ha) with rfl | ⟨-, hall⟩
        · exact List.mem_append_right _ (List.mem_singleton_self _)
        · exact List.mem_append_left _
            (ih (Nat.le_of_succ_le_succ hn) (hall x hpath.reaches hleads))
      · rw [(h.descending n).own y (hg.target_lt hleads) hy, OrderedSet.mem_singleton] at ha
        exact ha ▸ List.mem_append_right _ (List.mem_singleton_self _)

namespace Rooted

variable (hg : g.Rooted entry)

include hg

/-- The entry and the blocks that cannot be reached are dominated by themselves only. -/
theorem eq_of_dominates (h : g.Dominates a id) (hid : id ∉ g.refinedBlocks entry) : a = id := by
  by_cases hreaches : g.Reaches entry id
  · have heq : id = entry := by
      by_contra hne
      exact hid (hg.mem_refinedBlocks.2 ⟨hreaches, hne⟩)
    subst heq
    exact h.eq_entry hg.entry_eq
  · exact (dominates_iff_of_not_reaches hg.entry_eq hreaches).1 h

theorem descending_initial : g.Descending entry (g.initialDominators (g.refinedBlocks entry)) := by
  have hset : ∀ id < g.count, setOf (g.initialDominators (g.refinedBlocks entry)) id =
      if id ∈ g.refinedBlocks entry then .ofList (List.range g.count) else .singleton id := by
    intro id hid
    simp [setOf, initialDominators, hid]
  have hlength : (g.initialDominators (g.refinedBlocks entry)).length = g.count := by
    simp [initialDominators]
  have hmember : ∀ id, ∀ a ∈ setOf (g.initialDominators (g.refinedBlocks entry)) id,
      a < g.count := by
    intro id a ha
    by_cases hid : id < g.count
    · rw [hset id hid] at ha
      split at ha
      · simpa using ha
      · rw [OrderedSet.mem_singleton] at ha
        exact ha ▸ hid
    · rw [setOf, List.getElem?_eq_none (hlength.trans_le (Nat.not_lt.1 hid))] at ha
      exact absurd ha OrderedSet.mem_empty
  refine ⟨hlength, hmember, fun id hid hnot => by rw [hset id hid, if_neg hnot], ?_, ?_⟩
  · intro id hid a ha
    have hlt := hg.lt_of_reaches (hg.mem_refinedBlocks.1 hid).1
    rw [hset id hlt, if_pos hid, OrderedSet.mem_ofList, List.mem_range]
    rcases hg.mem_fromPredecessors.1 ha with rfl | ⟨⟨p, hp, hleads⟩, hall⟩
    · exact hlt
    · exact hmember p a (hall p hp hleads)
  · intro id hid a ha
    rw [hset id hid]
    split
    · next hrefined =>
      rw [OrderedSet.mem_ofList, List.mem_range]
      exact hg.lt_of_reaches (ha.reaches hg.entry_eq (hg.mem_refinedBlocks.1 hrefined).1)
    · next hnot =>
      rw [OrderedSet.mem_singleton]
      exact hg.eq_of_dominates ha hnot

/-- A pass visits every block with at most the sets from which it starts. -/
theorem narrowing_iterate : g.Narrowing entry fun n =>
    (g.dominatorPass (g.reachableFrom entry) (g.refinedBlocks entry))^[n]
      (g.initialDominators (g.refinedBlocks entry)) where
  descending n := (Descending.oneWay hg).iterate hg.descending_initial n
  step n id hid a ha := by
    have hdescending := (Descending.oneWay hg).iterate hg.descending_initial n
    obtain ⟨s, hs, hle, hvisit⟩ := (Descending.oneWay hg).exists_visit hdescending hid
    rw [Function.iterate_succ_apply'] at ha
    have hmem := hvisit id a ha
    rw [hs.setOf_visit hg hid, if_pos rfl] at hmem
    exact hg.fromPredecessors_mono hle id a hmem

theorem settles_solveDominators :
    Settles (g.dominatorPass (g.reachableFrom entry) (g.refinedBlocks entry))
      (g.initialDominators (g.refinedBlocks entry)) g.solveDominators.1 g.solveDominators.2 := by
  let pass := g.dominatorPass (g.reachableFrom entry) (g.refinedBlocks entry)
  have hpass : ∀ sets, g.Descending entry sets → g.Descending entry (pass sets) :=
    fun sets h => ((Descending.oneWay hg).visits h).1
  have hweight : ∀ sets, g.Descending entry sets → pass sets ≠ sets →
      Descending.weight g sets < Descending.weight g (pass sets) :=
    fun sets h hne => h.weight_lt (hpass sets h) ((Descending.oneWay hg).visits h).2 hne
  rw [solveDominators, hg.entry_eq]
  exact settles_settle (g.Descending entry) (Descending.weight g) hpass hweight
    (fun sets _ => Descending.weight_le g sets) hg.descending_initial
    (Nat.lt_of_lt_of_le (Nat.lt_succ_self _) (Nat.le_add_left _ _))

theorem descending_solveDominators : g.Descending entry g.solveDominators.2 :=
  hg.settles_solveDominators.keeps (fun _ h => ((Descending.oneWay hg).visits h).1)
    hg.descending_initial

/-- The computed dominators are the blocks that dominate. -/
theorem mem_solveDominators (hb : b < g.count) :
    a ∈ setOf g.solveDominators.2 b ↔ g.Dominates a b := by
  have hdescending := hg.descending_solveDominators
  have hnarrowing := hdescending.narrowing hg hg.settles_solveDominators.fixed
  refine ⟨fun ha => ?_, hdescending.sound b hb a⟩
  by_cases hreaches : g.Reaches entry b
  · exact (dominates_iff_of_reaches hg.entry_eq hreaches).2 fun path hpath =>
      hnarrowing.mem_path hg hpath (Nat.le_succ _) ha
  · have hown : b ∉ g.refinedBlocks entry := fun h => hreaches (hg.mem_refinedBlocks.1 h).1
    rw [hdescending.own b hb hown, OrderedSet.mem_singleton] at ha
    exact (dominates_iff_of_not_reaches hg.entry_eq hreaches).2 ha

end Rooted

theorem dominates_eq_true : g.dominates a b = true ↔ a ∈ setOf g.dominators b := by
  rw [dominates, setOf]
  cases g.dominators[b]? with
  | none => simp [OrderedSet.mem_empty]
  | some set => simp

/-! ## Edited graphs -/

namespace Extends

variable {listing : List Instruction}

theorem rooted (h : g.Extends listing) (hentry : g.entry = some entry) : g.Rooted entry where
  toLinked := h.linked
  entry_eq := hentry
  entry_lt := h.entry_lt hentry

theorem entry_eq_zero (h : g.Extends listing) (hid : id < g.count) : g.entry = some 0 := by
  rw [h.entry_eq_ite, if_neg (Nat.ne_zero_of_lt hid)]

theorem solveDominators_of_empty (h : g.Extends listing) (hcount : g.count = 0) :
    g.solveDominators = (0, []) := by
  rw [solveDominators, h.entry_eq_ite, if_pos hcount]

theorem length_solveDominators (h : g.Extends listing) :
    g.solveDominators.2.length = g.count := by
  by_cases hcount : g.count = 0
  · rw [h.solveDominators_of_empty hcount, hcount]
    rfl
  · have hentry := h.entry_eq_zero (Nat.pos_of_ne_zero hcount)
    exact (h.rooted hentry).descending_solveDominators.length_eq

end Extends

/-- The computation of dominators ends, and its sets hold what lies on all paths from the entry. -/
structure FindsDominators (g : FlowGraph) : Prop where
  entry_eq : g.entry = if g.count = 0 then none else some 0
  settles : ∀ entry, g.entry = some entry →
    Settles (g.dominatorPass (g.reachableFrom entry) (g.refinedBlocks entry))
      (g.initialDominators (g.refinedBlocks entry))
      g.computeDominators.1 g.computeDominators.2.dominators
  length_eq : g.computeDominators.2.dominators.length = g.count
  dominates_iff : ∀ entry, g.entry = some entry → ∀ a b, g.Reaches entry b →
    (g.computeDominators.2.dominates a b = true ↔ ∀ path, g.Path entry path b → a ∈ path)
  unreachable : ∀ b < g.count, b ∉ g.reachable →
    g.computeDominators.2.dominators[b]? = some (.singleton b)
  empty : g.count = 0 → g.computeDominators = (0, { g with dominators := [] })

theorem Rooted.getElem?_solveDominators (hg : g.Rooted entry) (hb : b < g.count)
    (hreachable : b ∉ g.reachable) : g.solveDominators.2[b]? = some (.singleton b) := by
  have hdescending := hg.descending_solveDominators
  have hown : b ∉ g.refinedBlocks entry := fun h =>
    hreachable ((mem_reachable hg.entry_eq).2 (hg.mem_refinedBlocks.1 h).1)
  have hset := hdescending.own b hb hown
  rw [setOf, List.getElem?_eq_getElem (hb.trans_eq hdescending.length_eq.symm)] at hset
  rw [List.getElem?_eq_getElem (hb.trans_eq hdescending.length_eq.symm)]
  exact congrArg some hset

/-- The dominators that are computed for a graph, however it was made, are those of its paths. -/
theorem findsDominators_of_edited {listing : List Instruction} {analysed : FlowGraph}
    (h : Edited listing analysed g) : g.FindsDominators where
  entry_eq := h.extends.entry_eq_ite
  settles _ hentry := (h.extends.rooted hentry).settles_solveDominators
  length_eq := h.extends.length_solveDominators
  dominates_iff entry hentry a b hreaches := by
    have hg := h.extends.rooted hentry
    rw [← dominates_iff_of_reaches hentry hreaches,
      ← hg.mem_solveDominators (hg.lt_of_reaches hreaches)]
    exact dominates_eq_true
  unreachable b hb hreachable :=
    (h.extends.rooted (h.extends.entry_eq_zero hb)).getElem?_solveDominators hb hreachable
  empty hcount := by
    rw [computeDominators, h.extends.solveDominators_of_empty hcount]

/-- A cycle that is entered at both of its blocks, and behind the return a jump into it. -/
def crossing : List Instruction :=
  [{ address := 0x0, word := 0, mnemonic := "beqz", operands := ["a2", "0x8"] },
    { address := 0x4, word := 0, mnemonic := "addi", operands := ["a3", "a3", "0x1"] },
    { address := 0x8, word := 0, mnemonic := "bnez", operands := ["a3", "0x4"] },
    { address := 0xc, word := 0, mnemonic := "ret", operands := [] },
    { address := 0x10, word := 0, mnemonic := "j", operands := ["0x4"] }]

theorem crossing_findsDominators :
    Edited crossing (ofListing crossing) (ofListing crossing) ∧
      (ofListing crossing).FindsDominators ∧
      ¬ (ofListing crossing).computeDominators.2.dominates 1 2 := by
  have hedited : Edited crossing (ofListing crossing) (ofListing crossing) := .build crossing .empty
  have hfound := findsDominators_of_edited hedited
  have hpath : (ofListing crossing).Path 0 [0, 2] 2 :=
    .step .start (show 2 ∈ (ofListing crossing).successors 0 by decide +kernel)
  refine ⟨hedited, hfound, fun hdominates => ?_⟩
  have hall := (hfound.dominates_iff 0 (by decide +kernel) 1 2 hpath.reaches).1 hdominates
  exact absurd (hall _ hpath) (by decide)

end FirmwareLift.FlowGraph
