import FirmwareLift.OrderedSet

/-!
# Ordered maps

A finite map kept as its entries in strictly ascending order of their keys.
-/

namespace FirmwareLift

variable {α β : Type} [LT α] [DecidableLT α]

/-- Gives `key` the value `value` in a list of entries with ascending keys. -/
def insertEntry (key : α) (value : β) : List (α × β) → List (α × β)
  | [] => [(key, value)]
  | entry :: rest =>
    if key < entry.1 then (key, value) :: entry :: rest
    else if entry.1 < key then entry :: insertEntry key value rest
    else (entry.1, value) :: rest

theorem keys_insertEntry (key : α) (value : β) (entries : List (α × β)) :
    (insertEntry key value entries).map (·.1) = insertAscending key (entries.map (·.1)) := by
  induction entries with
  | nil => rfl
  | cons entry rest ih =>
    simp only [insertEntry, insertAscending, List.map_cons]
    split
    · rfl
    · split <;> simp [ih]

/-- A finite map, listed in strictly ascending order of its keys. -/
structure OrderedMap (α β : Type) [LT α] where
  toList : List (α × β)
  ascending : (toList.map (·.1)).Pairwise (· < ·) := by simp
deriving DecidableEq

namespace OrderedMap

def empty : OrderedMap α β where
  toList := []

def keys (m : OrderedMap α β) : List α :=
  m.toList.map (·.1)

def values (m : OrderedMap α β) : List β :=
  m.toList.map (·.2)

def get? [DecidableEq α] (m : OrderedMap α β) (key : α) : Option β :=
  (m.toList.find? fun entry => entry.1 = key).map (·.2)

def filterKeys (keep : α → Bool) (m : OrderedMap α β) : OrderedMap α β where
  toList := m.toList.filter fun entry => keep entry.1
  ascending := m.ascending.sublist (List.filter_sublist.map _)

def erase [DecidableEq α] (key : α) (m : OrderedMap α β) : OrderedMap α β :=
  m.filterKeys fun k => k ≠ key

variable [LE α] [Std.IsLinearOrder α] [Std.LawfulOrderLT α]

/-- Gives `key` the value `value`, in place of any value it had. -/
def insert (key : α) (value : β) (m : OrderedMap α β) : OrderedMap α β where
  toList := insertEntry key value m.toList
  ascending := by
    rw [keys_insertEntry]
    exact pairwise_insertAscending key m.ascending

/-- Gives `key` the value `value` unless it has a value already. -/
def insertIfNew [DecidableEq α] (key : α) (value : β) (m : OrderedMap α β) : OrderedMap α β :=
  if (m.get? key).isSome then m else m.insert key value

/-- The last entry of a key in the list is the one that counts. -/
def ofList (entries : List (α × β)) : OrderedMap α β :=
  entries.foldl (fun m entry => m.insert entry.1 entry.2) empty

theorem get?_insert [DecidableEq α] (m : OrderedMap α β) (key other : α) (value : β) :
    (m.insert key value).get? other = if other = key then some value else m.get? other := by
  obtain ⟨entries, h⟩ := m
  simp only [get?, insert]
  induction entries with
  | nil => by_cases hk : key = other <;> simp [insertEntry, hk, eq_comm]
  | cons entry rest ih =>
    have ⟨hentry, hrest⟩ := List.pairwise_cons.1 h
    have ih := ih hrest
    simp only [insertEntry]
    split
    · by_cases hk : key = other <;> simp [List.find?_cons, hk, eq_comm (a := other)]
    · split
      · next hlt =>
        by_cases hk : entry.1 = other
        · subst hk
          have hne : entry.1 ≠ key := fun he => Std.lt_irrefl (he ▸ hlt)
          simp [hne]
        · simpa [List.find?_cons, hk] using ih
      · next hlt hgt =>
        have hk : entry.1 = key := by
          rcases Std.lt_trichotomy entry.1 key with h | h | h
          · exact absurd h hgt
          · exact h
          · exact absurd h hlt
        subst hk
        by_cases hk : entry.1 = other <;> simp [hk, eq_comm (a := other)]

end OrderedMap

end FirmwareLift
