import FirmwareLift.OrderedMap
import Mathlib.Algebra.GroupWithZero.Nat
import Mathlib.Data.List.Induction

/-!
# Keys and values of ordered maps

Which keys a map has, and that it has each of them once; how an insertion changes the sum of the
values, and so what a map of counts holds.
-/

namespace FirmwareLift.OrderedMap

variable {α β : Type} [LT α] [DecidableLT α] [LE α] [Std.IsLinearOrder α] [Std.LawfulOrderLT α]
  {key other : α} {value : β}

omit [DecidableLT α] [Std.IsLinearOrder α] in
theorem nodup_keys (m : OrderedMap α β) : m.keys.Nodup :=
  m.ascending.imp Std.ne_of_lt

theorem mem_keys_insert {m : OrderedMap α β} :
    other ∈ (m.insert key value).keys ↔ other = key ∨ other ∈ m.keys := by
  rw [keys, insert, keys_insertEntry, mem_insertAscending]
  rfl

omit [DecidableLT α] [LE α] [Std.IsLinearOrder α] [Std.LawfulOrderLT α] in
theorem isSome_get?_iff [DecidableEq α] {m : OrderedMap α β} :
    (m.get? key).isSome = true ↔ key ∈ m.keys := by
  simp [get?, keys, List.find?_isSome]

theorem mem_keys_insertIfNew [DecidableEq α] {m : OrderedMap α β} :
    other ∈ (m.insertIfNew key value).keys ↔ other = key ∨ other ∈ m.keys := by
  rw [insertIfNew]
  split
  · next hkey =>
    rw [isSome_get?_iff] at hkey
    constructor
    · exact .inr
    · rintro (rfl | h)
      · exact hkey
      · exact h
  · exact mem_keys_insert

omit [DecidableLT α] [LE α] [Std.IsLinearOrder α] [Std.LawfulOrderLT α] in
theorem get?_erase [DecidableEq α] (m : OrderedMap α β) (key other : α) :
    (m.erase key).get? other = if other = key then none else m.get? other := by
  simp only [get?, erase, filterKeys, List.find?_filter]
  by_cases h : other = key
  · subst h
    simp
  · rw [if_neg h]
    congr 2
    funext entry
    by_cases hentry : entry.1 = other
    · simp [hentry, h]
    · simp [hentry]

/-! ## Lists of entries -/

theorem insertEntry_of_lt {entries : List (α × β)} (h : ∀ entry ∈ entries, entry.1 < key) :
    insertEntry key value entries = entries ++ [(key, value)] := by
  induction entries with
  | nil => rfl
  | cons entry rest ih =>
    obtain ⟨hentry, hrest⟩ := List.forall_mem_cons.1 h
    rw [insertEntry, if_neg (Std.not_lt.2 (Std.le_of_lt hentry)), if_pos hentry, ih hrest,
      List.cons_append]

/-- A map is made up again by its own entries. -/
theorem ofList_toList (m : OrderedMap α β) : ofList m.toList = m := by
  have hfold : ∀ (rest : List (α × β)) (before : OrderedMap α β),
      ((before.toList ++ rest).map (·.1)).Pairwise (· < ·) →
      (rest.foldl (fun m entry => m.insert entry.1 entry.2) before).toList =
        before.toList ++ rest := by
    intro rest
    induction rest with
    | nil => simp
    | cons entry rest ih =>
      intro before h
      have hlt : ∀ other ∈ before.toList, other.1 < entry.1 := by
        intro other hother
        rw [List.map_append, List.pairwise_append] at h
        exact h.2.2 _ (List.mem_map_of_mem hother) _ (by simp)
      have hinsert : (before.insert entry.1 entry.2).toList = before.toList ++ [entry] :=
        insertEntry_of_lt hlt
      have happend : before.toList ++ [entry] ++ rest = before.toList ++ entry :: rest := by simp
      rw [List.foldl_cons, ih, hinsert, happend]
      rwa [hinsert, happend]
  have htoList : (ofList m.toList).toList = m.toList := hfold m.toList empty m.ascending
  generalize ofList m.toList = n at htoList
  cases m
  cases n
  cases htoList
  rfl

/-- Of the entries of a key, the last one counts. -/
theorem get?_ofList [DecidableEq α] (entries : List (α × β)) (key : α) :
    (ofList entries).get? key =
      (entries.filter fun entry => entry.1 = key).getLast?.map (·.2) := by
  induction entries using List.reverseRecOn with
  | nil => rfl
  | append_singleton entries entry ih =>
    have hinsert : ofList (entries ++ [entry]) = (ofList entries).insert entry.1 entry.2 := by
      simp [ofList]
    rw [hinsert, get?_insert, ih, List.filter_append]
    by_cases h : entry.1 = key
    · simp [h]
    · simp [h, Ne.symm h]

/-! ## Counts -/

/-- The new value takes the place of the old one in the sum. -/
theorem sum_values_insert [DecidableEq α] (m : OrderedMap α Nat) (key : α) (value : Nat) :
    (m.insert key value).values.sum + (m.get? key).getD 0 = m.values.sum + value := by
  obtain ⟨entries, h⟩ := m
  simp only [values, insert, get?]
  induction entries with
  | nil => simp [insertEntry]
  | cons entry rest ih =>
    obtain ⟨hentry, hrest⟩ := List.pairwise_cons.1 h
    simp only [insertEntry]
    split
    · next hlt =>
      -- All keys lie above, so the key had no value.
      have hnone : (entry :: rest).find? (fun entry => decide (entry.1 = key)) = none := by
        simp only [List.find?_eq_none, decide_eq_true_eq]
        rintro other hother rfl
        rcases List.mem_cons.1 hother with rfl | hother
        · exact Std.lt_irrefl hlt
        · exact Std.lt_irrefl (Std.lt_trans hlt (hentry _ (List.mem_map_of_mem hother)))
      rw [hnone]
      simp [Nat.add_comm]
    · split
      · next hgt =>
        have hne : entry.1 ≠ key := Std.ne_of_lt hgt
        have ih := ih hrest
        simp only [List.find?_cons, hne, decide_false, List.map_cons, List.sum_cons]
        omega
      · next hlt hgt =>
        have hkey : entry.1 = key := Std.le_antisymm (Std.not_lt.1 hlt) (Std.not_lt.1 hgt)
        simp only [List.find?_cons, hkey, decide_true, List.map_cons, List.sum_cons,
          Option.map_some, Option.getD_some]
        omega

/-- Adds to a map of counts how often each key stands in a list. -/
def tally [DecidableEq α] (m : OrderedMap α Nat) (keys : List α) : OrderedMap α Nat :=
  keys.foldl (fun m key => m.insert key ((m.get? key).getD 0 + 1)) m

theorem get?_tally [DecidableEq α] (m : OrderedMap α Nat) (keys : List α) (key : α) :
    (m.tally keys).get? key =
      if key ∈ keys then some ((m.get? key).getD 0 + keys.count key) else m.get? key := by
  induction keys generalizing m with
  | nil => simp [tally]
  | cons first rest ih =>
    have hstep : m.tally (first :: rest) =
        (m.insert first ((m.get? first).getD 0 + 1)).tally rest := rfl
    rw [hstep, ih, get?_insert]
    by_cases hkey : key = first
    · subst hkey
      by_cases hmem : key ∈ rest
      · simp [hmem, Nat.add_assoc, Nat.add_comm 1]
      · simp [hmem, List.count_eq_zero.2 hmem]
    · simp [hkey, Ne.symm hkey]

theorem sum_values_tally [DecidableEq α] (m : OrderedMap α Nat) (keys : List α) :
    (m.tally keys).values.sum = m.values.sum + keys.length := by
  induction keys generalizing m with
  | nil => rfl
  | cons first rest ih =>
    have hinsert := m.sum_values_insert first ((m.get? first).getD 0 + 1)
    have ih := ih (m.insert first ((m.get? first).getD 0 + 1))
    rw [List.length_cons]
    change ((m.insert first ((m.get? first).getD 0 + 1)).tally rest).values.sum = _
    omega

end FirmwareLift.OrderedMap
