import FirmwareLift.Dataflow
import FirmwareLift.Proofs.FixedPoint
import FirmwareLift.Proofs.OrderedSet
import Mathlib.Algebra.Order.BigOperators.Group.Finset

/-!
# Flow problems

A flow problem says what the sets of a block are to be, given those of the other blocks. From empty
sets on, a pass over the blocks only adds registers, and there are finitely many to add. So repeated
passes end in sets that satisfy the problem at every block at once.
-/

namespace FirmwareLift

namespace FlowSets

instance : LE FlowSets where
  le s t := ∀ id, s.beforeBlock id ⊆ t.beforeBlock id ∧ s.behindBlock id ⊆ t.behindBlock id

structure Sized (s : FlowSets) (count : Nat) : Prop where
  before : s.before.length = count
  behind : s.behind.length = count

variable {s t : FlowSets} {count id other : BlockId} {before behind : RegisterSet}

theorem le_refl (s : FlowSets) : s ≤ s :=
  fun _ => ⟨fun _ h => h, fun _ h => h⟩

theorem le_trans {u : FlowSets} (h : s ≤ t) (h' : t ≤ u) : s ≤ u :=
  fun id => ⟨fun r hr => (h' id).1 r ((h id).1 r hr), fun r hr => (h' id).2 r ((h id).2 r hr)⟩

theorem eq_of_getD_eq {α : Type} {a : α} {l m : List α} (hlength : l.length = m.length)
    (h : ∀ id : Nat, l[id]?.getD a = m[id]?.getD a) : l = m := by
  apply List.ext_getElem hlength
  intro id hl hm
  simpa [hl, hm] using h id

theorem Sized.ext (hs : s.Sized count) (ht : t.Sized count)
    (hbefore : ∀ id, s.beforeBlock id = t.beforeBlock id)
    (hbehind : ∀ id, s.behindBlock id = t.behindBlock id) : s = t := by
  obtain ⟨sbefore, sbehind⟩ := s
  obtain ⟨tbefore, tbehind⟩ := t
  obtain rfl : sbefore = tbefore := eq_of_getD_eq (hs.before.trans ht.before.symm) hbefore
  obtain rfl : sbehind = tbehind := eq_of_getD_eq (hs.behind.trans ht.behind.symm) hbehind
  rfl

theorem Sized.eq_of_le_of_le (hs : s.Sized count) (ht : t.Sized count) (h : s ≤ t) (h' : t ≤ s) :
    s = t :=
  hs.ext ht (fun id => OrderedSet.ext fun r => ⟨(h id).1 r, (h' id).1 r⟩)
    fun id => OrderedSet.ext fun r => ⟨(h id).2 r, (h' id).2 r⟩

theorem Sized.set (hs : s.Sized count) : (s.set id before behind).Sized count where
  before := by simpa [FlowSets.set] using hs.before
  behind := by simpa [FlowSets.set] using hs.behind

theorem Sized.beforeBlock_set (hs : s.Sized count) (hid : id < count) :
    (s.set id before behind).beforeBlock other =
      if other = id then before else s.beforeBlock other := by
  simp only [beforeBlock, FlowSets.set, List.getElem?_set, eq_comm (a := id), hs.before, hid]
  split <;> simp_all

theorem Sized.behindBlock_set (hs : s.Sized count) (hid : id < count) :
    (s.set id before behind).behindBlock other =
      if other = id then behind else s.behindBlock other := by
  simp only [behindBlock, FlowSets.set, List.getElem?_set, eq_comm (a := id), hs.behind, hid]
  split <;> simp_all

theorem sized_ofCount (count : Nat) : (ofCount count).Sized count where
  before := List.length_replicate
  behind := List.length_replicate

theorem beforeBlock_ofCount (count id : Nat) : (ofCount count).beforeBlock id = .empty := by
  simp only [beforeBlock, ofCount, List.getElem?_replicate]
  split <;> rfl

theorem behindBlock_ofCount (count id : Nat) : (ofCount count).behindBlock id = .empty := by
  simp only [behindBlock, ofCount, List.getElem?_replicate]
  split <;> rfl

def weight (count : Nat) (s : FlowSets) : Nat :=
  ∑ id ∈ Finset.range count, ((s.beforeBlock id).size + (s.behindBlock id).size)

theorem Sized.sets_of_le (hs : s.Sized count) (hid : count ≤ id) :
    s.beforeBlock id = .empty ∧ s.behindBlock id = .empty := by
  rw [beforeBlock, behindBlock, List.getElem?_eq_none (hs.before.trans_le hid),
    List.getElem?_eq_none (hs.behind.trans_le hid)]
  exact ⟨rfl, rfl⟩

theorem sizes_le (hle : s ≤ t) (id : BlockId) :
    (s.beforeBlock id).size + (s.behindBlock id).size ≤
      (t.beforeBlock id).size + (t.behindBlock id).size :=
  Nat.add_le_add (OrderedSet.size_le_size (hle id).1) (OrderedSet.size_le_size (hle id).2)

theorem Sized.weight_lt (hs : s.Sized count) (ht : t.Sized count) (hle : s ≤ t) (hne : t ≠ s) :
    s.weight count < t.weight count := by
  refine Finset.sum_lt_sum (fun id _ => sizes_le hle id) ?_
  by_contra hnone
  have hsets : ∀ id, s.beforeBlock id = t.beforeBlock id ∧ s.behindBlock id = t.behindBlock id := by
    intro id
    by_cases hid : id < count
    · have hsizes : ¬ (s.beforeBlock id).size + (s.behindBlock id).size <
          (t.beforeBlock id).size + (t.behindBlock id).size :=
        fun h => hnone ⟨id, Finset.mem_range.2 hid, h⟩
      have hbefore := OrderedSet.size_le_size (hle id).1
      have hbehind := OrderedSet.size_le_size (hle id).2
      exact ⟨OrderedSet.eq_of_subset_of_size_le (hle id).1 (by omega),
        OrderedSet.eq_of_subset_of_size_le (hle id).2 (by omega)⟩
    · obtain ⟨hbefore, hbehind⟩ := hs.sets_of_le (Nat.not_lt.1 hid)
      obtain ⟨hbefore', hbehind'⟩ := ht.sets_of_le (Nat.not_lt.1 hid)
      exact ⟨hbefore.trans hbefore'.symm, hbehind.trans hbehind'.symm⟩
  exact hne (hs.ext ht (fun id => (hsets id).1) fun id => (hsets id).2).symm

/-- The sets of each block hold only registers of which the one or the other property is true. -/
def Below (s : FlowSets) (before behind : BlockId → String → Prop) : Prop :=
  ∀ id, (∀ r ∈ s.beforeBlock id, before id r) ∧ ∀ r ∈ s.behindBlock id, behind id r

theorem below_ofCount (before behind : BlockId → String → Prop) (count : Nat) :
    (ofCount count).Below before behind := by
  intro id
  rw [beforeBlock_ofCount, behindBlock_ofCount]
  exact ⟨fun _ h => absurd h OrderedSet.mem_empty, fun _ h => absurd h OrderedSet.mem_empty⟩

/-- All registers in the sets are among the operands. -/
def Within (s : FlowSets) (operands : List Operand) : Prop :=
  ∀ id, (∀ r ∈ s.beforeBlock id, r ∈ operands) ∧ ∀ r ∈ s.behindBlock id, r ∈ operands

theorem Within.weight_le {operands : List Operand} (h : s.Within operands) (count : Nat) :
    s.weight count ≤ 2 * count * operands.length := by
  have hsum : s.weight count ≤ ∑ _id ∈ Finset.range count, 2 * operands.length := by
    refine Finset.sum_le_sum fun id _ => ?_
    have hbefore := OrderedSet.size_le_length (h id).1
    have hbehind := OrderedSet.size_le_length (h id).2
    omega
  rw [Finset.sum_const_nat fun _ _ => rfl, Finset.card_range] at hsum
  calc
    s.weight count ≤ count * (2 * operands.length) := hsum
    _ = 2 * count * operands.length := by rw [← Nat.mul_assoc, Nat.mul_comm count 2]

end FlowSets

/-! ## Problems -/

/-- What the sets of a block are to be, given those of the other blocks. -/
structure FlowProblem where
  /-- The blocks in the order in which a pass visits them. -/
  blocks : List Block
  count : Nat
  operands : List Operand
  before : FlowSets → Block → RegisterSet
  behind : FlowSets → Block → RegisterSet
  id_lt : ∀ b ∈ blocks, b.id < count
  id_injective : ∀ b ∈ blocks, ∀ c ∈ blocks, b.id = c.id → b = c
  before_mono : ∀ {s t : FlowSets}, s ≤ t → ∀ b, before s b ⊆ before t b
  behind_mono : ∀ {s t : FlowSets}, s ≤ t → ∀ b, behind s b ⊆ behind t b
  before_within : ∀ {s : FlowSets}, s.Within operands → ∀ b ∈ blocks, ∀ r ∈ before s b, r ∈ operands
  behind_within : ∀ {s : FlowSets}, s.Within operands → ∀ b ∈ blocks, ∀ r ∈ behind s b, r ∈ operands

namespace FlowProblem

variable (p : FlowProblem)

def visit (s : FlowSets) (b : Block) : FlowSets :=
  s.set b.id (p.before s b) (p.behind s b)

def pass (s : FlowSets) : FlowSets :=
  p.blocks.foldl p.visit s

/-- Every block has the sets that the problem asks for. -/
def Solved (s : FlowSets) : Prop :=
  ∀ b ∈ p.blocks, s.beforeBlock b.id = p.before s b ∧ s.behindBlock b.id = p.behind s b

/-- No block has a register that the problem does not ask for. -/
structure Rising (s : FlowSets) : Prop where
  sized : s.Sized p.count
  within : s.Within p.operands
  below : ∀ b ∈ p.blocks, s.beforeBlock b.id ⊆ p.before s b ∧ s.behindBlock b.id ⊆ p.behind s b

/-- In this sequence of sets, each holds what the problem asks for, given the sets before it. -/
def Advancing (t : Nat → FlowSets) : Prop :=
  ∀ n, ∀ b ∈ p.blocks, p.before (t n) b ⊆ (t (n + 1)).beforeBlock b.id ∧
    p.behind (t n) b ⊆ (t (n + 1)).behindBlock b.id

variable {p} {s : FlowSets} {b : Block} {blocks : List Block}

theorem beforeBlock_visit (hs : s.Sized p.count) (hb : b ∈ p.blocks) (id : BlockId) :
    (p.visit s b).beforeBlock id = if id = b.id then p.before s b else s.beforeBlock id :=
  hs.beforeBlock_set (p.id_lt b hb)

theorem behindBlock_visit (hs : s.Sized p.count) (hb : b ∈ p.blocks) (id : BlockId) :
    (p.visit s b).behindBlock id = if id = b.id then p.behind s b else s.behindBlock id :=
  hs.behindBlock_set (p.id_lt b hb)

theorem Rising.le_visit (h : p.Rising s) (hb : b ∈ p.blocks) : s ≤ p.visit s b := by
  intro id
  rw [beforeBlock_visit h.sized hb, behindBlock_visit h.sized hb]
  split
  · next heq =>
      rw [heq]
      exact h.below b hb
  · exact FlowSets.le_refl s id

theorem Rising.visit (h : p.Rising s) (hb : b ∈ p.blocks) : p.Rising (p.visit s b) where
  sized := h.sized.set
  within id := by
    rw [beforeBlock_visit h.sized hb, behindBlock_visit h.sized hb]
    split
    · exact ⟨p.before_within h.within b hb, p.behind_within h.within b hb⟩
    · exact h.within id
  below c hc := by
    -- What is asked for grows with the sets, so no set that was below it passes it.
    have hle := h.le_visit hb
    have hbefore := p.before_mono hle c
    have hbehind := p.behind_mono hle c
    rw [beforeBlock_visit h.sized hb, behindBlock_visit h.sized hb]
    split
    · next heq =>
        obtain rfl := p.id_injective c hc b hb heq
        exact ⟨hbefore, hbehind⟩
    · exact ⟨fun r hr => hbefore r ((h.below c hc).1 r hr),
        fun r hr => hbehind r ((h.below c hc).2 r hr)⟩

variable (p) in
theorem oneWay : OneWay p.Rising (· ≤ ·) p.visit p.blocks where
  refl := FlowSets.le_refl
  trans _ _ _ := FlowSets.le_trans
  antisymm _ _ hs ht := hs.sized.eq_of_le_of_le ht.sized
  keeps _ h _ hb := h.visit hb
  moves _ h _ hb := h.le_visit hb

theorem Rising.solved (h : p.Rising s) (hidle : p.pass s = s) : p.Solved s := by
  intro b hb
  have heq := p.oneWay.visit_eq h hidle b hb
  have hbefore := beforeBlock_visit h.sized hb b.id
  have hbehind := behindBlock_visit h.sized hb b.id
  rw [heq, if_pos rfl] at hbefore hbehind
  exact ⟨hbefore, hbehind⟩

theorem Solved.advancing (h : p.Solved s) : p.Advancing fun _ => s := by
  intro n b hb
  obtain ⟨hbefore, hbehind⟩ := h b hb
  exact ⟨fun r hr => hbefore ▸ hr, fun r hr => hbehind ▸ hr⟩

variable (p)

theorem rising_ofCount : p.Rising (.ofCount p.count) where
  sized := FlowSets.sized_ofCount p.count
  within := FlowSets.below_ofCount _ _ p.count
  below b _ := by
    rw [FlowSets.beforeBlock_ofCount, FlowSets.behindBlock_ofCount]
    exact ⟨fun _ h => absurd h OrderedSet.mem_empty, fun _ h => absurd h OrderedSet.mem_empty⟩

/-- A pass visits every block with at least the sets from which it starts. -/
theorem advancing_iterate : p.Advancing fun n => p.pass^[n] (.ofCount p.count) := by
  intro n b hb
  have hrising := p.oneWay.iterate p.rising_ofCount n
  obtain ⟨s, hs, hle, hvisit⟩ := p.oneWay.exists_visit hrising hb
  have hbefore := beforeBlock_visit hs.sized hb b.id
  have hbehind := behindBlock_visit hs.sized hb b.id
  rw [if_pos rfl] at hbefore hbehind
  obtain ⟨hkeptBefore, hkeptBehind⟩ := hvisit b.id
  rw [hbefore] at hkeptBefore
  rw [hbehind] at hkeptBehind
  simp only [Function.iterate_succ_apply']
  exact ⟨fun r hr => hkeptBefore r (p.before_mono hle b r hr),
    fun r hr => hkeptBehind r (p.behind_mono hle b r hr)⟩

/-- Where the passes come to rest. -/
def solution : FlowSets :=
  (settle p.pass (2 * p.count * p.operands.length + 1) (.ofCount p.count)).2

theorem settles_solution :
    Settles p.pass (.ofCount p.count)
      (settle p.pass (2 * p.count * p.operands.length + 1) (.ofCount p.count)).1 p.solution :=
  settles_settle p.Rising (FlowSets.weight p.count)
    (fun _ h => (p.oneWay.visits h).1)
    (fun _ h hne => h.sized.weight_lt (p.oneWay.visits h).1.sized (p.oneWay.visits h).2 hne)
    (fun _ h => h.within.weight_le p.count) p.rising_ofCount
    (Nat.lt_of_lt_of_le (Nat.lt_succ_self _) (Nat.le_add_left _ _))

/-- Passes that lead as far as the solution are followed by one more at most. -/
theorem passes_le {n : Nat} (hn : p.solution ≤ p.pass^[n] (.ofCount p.count)) :
    (settle p.pass (2 * p.count * p.operands.length + 1) (.ofCount p.count)).1 ≤ n + 1 :=
  p.oneWay.passes_le p.settles_solution p.rising_ofCount hn

theorem rising_solution : p.Rising p.solution :=
  p.settles_solution.keeps (fun _ h => (p.oneWay.visits h).1) p.rising_ofCount

theorem solved_solution : p.Solved p.solution :=
  p.rising_solution.solved p.settles_solution.fixed

/-- The solution holds no more than what the problem draws from sets that hold no more. -/
theorem below_solution {before behind : BlockId → String → Prop}
    (h : ∀ s : FlowSets, s.Below before behind → ∀ b ∈ p.blocks,
      (∀ r ∈ p.before s b, before b.id r) ∧ ∀ r ∈ p.behind s b, behind b.id r) :
    p.solution.Below before behind := by
  let Inv (s : FlowSets) : Prop := p.Rising s ∧ s.Below before behind
  have hvisit : ∀ s, Inv s → ∀ b ∈ p.blocks, Inv (p.visit s b) := by
    intro s ⟨hrising, hbelow⟩ b hb
    refine ⟨hrising.visit hb, fun id => ?_⟩
    rw [beforeBlock_visit hrising.sized hb, behindBlock_visit hrising.sized hb]
    split
    · next heq => exact heq ▸ h s hbelow b hb
    · exact hbelow id
  have hpass : ∀ s, Inv s → Inv (p.pass s) :=
    fun s hs => List.foldlRecOn p.blocks p.visit hs hvisit
  exact (p.settles_solution.keeps hpass
    ⟨p.rising_ofCount, FlowSets.below_ofCount before behind p.count⟩).2

/-- The passes come to rest in the least of all sets that satisfy the problem. -/
theorem isLeast_solution : IsLeast {s | p.Solved s} p.solution := by
  refine ⟨p.solved_solution, fun t ht => p.below_solution fun s hle b hb => ?_⟩
  obtain ⟨hbefore, hbehind⟩ := ht b hb
  rw [hbefore, hbehind]
  exact ⟨p.before_mono hle b, p.behind_mono hle b⟩

end FlowProblem

end FirmwareLift
