import FirmwareLift.OrderedSet

/-!
# Iteration

The two ways in which the analyses iterate: passes that are repeated until they change nothing, and
a worklist that is worked off.
-/

namespace FirmwareLift

/-! ## Fixed points

Repeating a pass until it changes nothing, and counting the passes. -/

/--
Repeats `pass` until it leaves the state as it was, at most `limit` times. Returns the number of
passes, the last and idle one included, beside the final state.
-/
def settle {σ : Type} [DecidableEq σ] (pass : σ → σ) : (limit : Nat) → σ → Nat × σ
  | 0, state => (0, state)
  | limit + 1, state =>
    let next := pass state
    if next = state then (1, state)
    else
      let (passes, final) := settle pass limit next
      (passes + 1, final)

/-! ## Flooding

The ids that can be reached from a list of ids by a step relation, as a worklist finds them. What
has been found is marked. -/

/-- One mark for each id; the size tells which ids there are. -/
abbrev Marks := Array Bool

namespace Marks

def ofCount (count : Nat) : Marks :=
  Array.replicate count false

def mark (id : Nat) (marks : Marks) : Marks :=
  marks.setIfInBounds id true

def ids (marks : Marks) : OrderedSet Nat where
  toList := (List.range marks.size).filter fun id => marks[id]? = some true
  ascending := List.pairwise_lt_range.filter _

theorem mem_ids {marks : Marks} {id : Nat} : id ∈ marks.ids ↔ marks[id]? = some true := by
  simp only [← OrderedSet.mem_toList, ids, List.mem_filter, List.mem_range, decide_eq_true_eq,
    and_iff_right_iff_imp]
  exact fun h => (Array.getElem?_eq_some_iff.1 h).1

theorem count_set_lt {marks : Marks} {id : Nat} (hid : id < marks.size) (h : marks[id] = false) :
    (marks.set id true).count false < marks.count false := by
  have : 0 < marks.count false := Array.count_pos_iff.2 (h ▸ Array.getElem_mem hid)
  rw [Array.count_set hid, h]
  exact Nat.sub_lt this Nat.one_pos

/--
Marks the ids of `work` and all that `next` leads to from them, without going through ids that are
marked already. Ids that have no mark are left out.
-/
def flood (next : Nat → List Nat) (marks : Marks) : (work : List Nat) → Marks
  | [] => marks
  | id :: work =>
    if hid : id < marks.size then
      if h : marks[id] = false then
        have := count_set_lt hid h
        flood next (marks.set id true) (next id ++ work)
      else flood next marks work
    else flood next marks work
termination_by work => (marks.count false, work.length)

end Marks

end FirmwareLift
