import FirmwareLift.Json.Parser
import FirmwareLift.Proofs.Json.RoundTrip
import FirmwareLift.Proofs.OrderedMap
import Mathlib.Data.List.Basic

/-!
# Records that are given in part

An object with some fields of a record is read field by field: a field that is given has its value,
every other field is missing, whatever the order.
-/

namespace FirmwareLift.Json

/-- An object with those fields of a record whose names are kept, in any order. -/
def Selects (json : Json) (keep : String → Bool) (fields : Record) : Prop :=
  ∃ given : Record, json = .ofFields given ∧ given.Perm (fields.filter fun field => keep field.1)

/-! ## Reading -/

section

variable {keep : String → Bool} {fields given : Record}

theorem nodup_given (hnodup : (fields.map (·.1)).Nodup)
    (hgiven : given.Perm (fields.filter fun field => keep field.1)) :
    (given.map (·.1)).Nodup :=
  (hgiven.map _).nodup_iff.2 (hnodup.sublist (List.filter_sublist.map _))

/-- Fields of other names are not there, so all fields of the object count. -/
theorem record?_ofFields (hnodup : (fields.map (·.1)).Nodup)
    (hgiven : given.Perm (fields.filter fun field => keep field.1)) :
    (ofFields given).record? (fields.map (·.1)) = some given := by
  have hknown : knownFields (fields.map (·.1))
      (given.map fun field => (some field.1, field.2)) = given := by
    rw [knownFields, List.filterMap_map]
    conv => rhs; rw [← List.filterMap_some (l := given)]
    refine List.filterMap_congr fun field hfield => ?_
    have hmem := (List.mem_filter.1 (hgiven.subset hfield)).1
    exact if_pos (List.mem_map_of_mem hmem)
  rw [ofFields, record?, hknown]
  have hnames := nodup_given hnodup hgiven
  simp [hnames]

theorem find?_of_mem {name : String} {value : Json} (hnodup : (given.map (·.1)).Nodup)
    (hfield : (name, value) ∈ given) :
    given.find? (fun field => field.1 = name) = some (name, value) := by
  induction given with
  | nil => cases hfield
  | cons field rest ih =>
      obtain ⟨hnew, hrest⟩ := List.nodup_cons.1 hnodup
      rcases List.mem_cons.1 hfield with rfl | hfield
      · simp
      · have hne : field.1 ≠ name := by
          rintro rfl
          exact hnew (List.mem_map.2 ⟨_, hfield, rfl⟩)
        rw [List.find?_cons_of_neg (by simpa using hne)]
        exact ih hrest hfield

/-- A field that is kept has its own value, and any other one the value for missing fields. -/
theorem Record.getD_of_perm {α : Type} {name : String} {value : Json} {read? : Json → Option α}
    {own missing : α} (hnodup : (fields.map (·.1)).Nodup)
    (hgiven : given.Perm (fields.filter fun field => keep field.1))
    (hfield : (name, value) ∈ fields) (hread : read? value = some own) :
    Record.getD given name read? missing = some (if keep name then own else missing) := by
  split
  · next hkeep =>
    have hmem : (name, value) ∈ given := hgiven.mem_iff.2 (List.mem_filter.2 ⟨hfield, hkeep⟩)
    rw [getD, find?_of_mem (nodup_given hnodup hgiven) hmem]
    exact hread
  · next hkeep =>
    have hnone : given.find? (fun field => field.1 = name) = none := by
      rw [List.find?_eq_none]
      rintro field hmem heq
      obtain rfl := of_decide_eq_true heq
      exact hkeep (List.mem_filter.1 (hgiven.subset hmem)).2
    rw [getD, hnone]

end

/-! ## Values of fields -/

theorem text?_ofString (text : String) : text? (ofString text) = some text := rfl

theorem word?_natural (word : UInt32) : word? (.natural word.toNat) = some word := by
  rw [word?, if_pos word.toNat_lt, UInt32.ofNat_toNat]

theorem word64?_natural (word : UInt64) : word64? (.natural word.toNat) = some word := by
  rw [word64?, if_pos word.toNat_lt, UInt64.ofNat_toNat]

theorem items?_array {α : Type} {read? : Json → Option α} {write : α → Json}
    (h : ∀ a, read? (write a) = some a) (l : List α) :
    items? read? (.array (l.map write)) = some l := by
  rw [items?]
  induction l with
  | nil => rfl
  | cons a rest ih =>
      rw [List.map_cons, List.mapM_cons, ih]
      simp [h]

theorem entries?_ofFields {α : Type} {read? : Json → Option α} {write : α → Json}
    (h : ∀ a, read? (write a) = some a) (l : List (String × α)) :
    entries? read? (ofFields (l.map fun entry => (entry.1, write entry.2))) = some l := by
  rw [ofFields, entries?]
  induction l with
  | nil => rfl
  | cons entry rest ih =>
      rw [List.map_cons, List.map_cons, List.mapM_cons, ih]
      simp [h]

/-! ## Plain values -/

theorem plainFields_of_forall {fields : Record} (h : ∀ field ∈ fields, field.2.Plain) :
    (ofFields fields).Plain := by
  rw [ofFields, Plain]
  induction fields with
  | nil => trivial
  | cons field rest ih =>
      obtain ⟨hfield, hrest⟩ := List.forall_mem_cons.1 h
      exact ⟨rfl, hfield, ih hrest⟩

theorem plain_array {items : List Json} (h : ∀ item ∈ items, item.Plain) :
    (array items).Plain := by
  rw [Plain]
  induction items with
  | nil => trivial
  | cons item rest ih =>
      obtain ⟨hitem, hrest⟩ := List.forall_mem_cons.1 h
      exact ⟨hitem, ih hrest⟩

theorem Selects.plain {json : Json} {keep : String → Bool} {fields : Record}
    (h : json.Selects keep fields) (hplain : ∀ field ∈ fields, field.2.Plain) : json.Plain := by
  obtain ⟨given, rfl, hgiven⟩ := h
  exact plainFields_of_forall fun field hfield =>
    hplain field (List.mem_filter.1 (hgiven.subset hfield)).1

end FirmwareLift.Json
