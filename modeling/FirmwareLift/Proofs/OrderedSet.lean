import FirmwareLift.OrderedSet
import Mathlib.Data.List.Sort
import Mathlib.Data.Set.Card

/-!
# Ordered sets and their members

An ordered set is told by its members. Its size is that of a list that holds each of them once, so
of two sets, one in the other, the larger size belongs to the larger set.
-/

namespace FirmwareLift

theorem ncard_eq_length {α : Type} {s : Set α} {l : List α} (hnodup : l.Nodup)
    (hmem : ∀ a, a ∈ l ↔ a ∈ s) : s.ncard = l.length := by
  classical
  have hset : s = l.toFinset := by
    ext a
    rw [← hmem, Finset.mem_coe, List.mem_toFinset]
  rw [hset, Set.ncard_coe_finset, List.toFinset_card_of_nodup hnodup]

namespace OrderedSet

variable {α : Type} [LT α] [LE α] [Std.LawfulOrderLT α] {s t : OrderedSet α}

theorem ext (h : ∀ a, a ∈ s ↔ a ∈ t) : s = t := by
  obtain ⟨s, hs⟩ := s
  obtain ⟨t, ht⟩ := t
  obtain rfl : s = t := hs.eq_of_mem_iff ht h
  rfl

instance : HasSubset (OrderedSet α) where
  Subset s t := ∀ a ∈ s, a ∈ t

def size (s : OrderedSet α) : Nat :=
  s.toList.length

theorem nodup_toList (s : OrderedSet α) : s.toList.Nodup :=
  s.ascending.imp Std.ne_of_lt

theorem size_le_length {l : List α} (h : ∀ a ∈ s, a ∈ l) : s.size ≤ l.length :=
  (List.subperm_of_subset s.nodup_toList h).length_le

theorem size_le_size (h : s ⊆ t) : s.size ≤ t.size :=
  size_le_length h

theorem eq_of_subset_of_size_le (h : s ⊆ t) (hsize : t.size ≤ s.size) : s = t := by
  have hperm := (List.subperm_of_subset s.nodup_toList h).perm_of_length_le hsize
  exact ext fun a => hperm.mem_iff

end OrderedSet

end FirmwareLift
