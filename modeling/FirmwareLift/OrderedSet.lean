/-!
# Ordered sets

A finite set kept as its strictly ascending list of members. Two sets with the same members are the
same list, so equality of sets is decided by equality of lists.
-/

namespace FirmwareLift

variable {α : Type} [LT α] [DecidableLT α]

/-- Puts `a` at its place in an ascending list; a member stays where it is. -/
def insertAscending (a : α) : List α → List α
  | [] => [a]
  | b :: rest =>
    if a < b then a :: b :: rest
    else if b < a then b :: insertAscending a rest
    else b :: rest

/-- The members of either of two ascending lists. -/
def unionAscending : List α → List α → List α
  | [], bs => bs
  | a :: as, [] => a :: as
  | a :: as, b :: bs =>
    if a < b then a :: unionAscending as (b :: bs)
    else if b < a then b :: unionAscending (a :: as) bs
    else a :: unionAscending as bs
termination_by as bs => as.length + bs.length

/-- The common members of two ascending lists. -/
def interAscending : List α → List α → List α
  | [], _ => []
  | _ :: _, [] => []
  | a :: as, b :: bs =>
    if a < b then interAscending as (b :: bs)
    else if b < a then interAscending (a :: as) bs
    else a :: interAscending as bs
termination_by as bs => as.length + bs.length

theorem mem_of_mem_insertAscending {a x : α} {s : List α} (h : x ∈ insertAscending a s) :
    x = a ∨ x ∈ s := by
  induction s with
  | nil => simpa [insertAscending] using h
  | cons b rest ih =>
    simp only [insertAscending] at h
    split at h
    · simpa using h
    · split at h
      · rcases List.mem_cons.1 h with rfl | h
        · simp
        · rcases ih h with rfl | h <;> simp [*]
      · exact .inr h

theorem mem_of_mem_unionAscending {x : α} {s t : List α} (h : x ∈ unionAscending s t) :
    x ∈ s ∨ x ∈ t := by
  fun_induction unionAscending s t with
  | case1 => exact .inr h
  | case2 => exact .inl h
  | case3 a as b bs _ ih =>
    rcases List.mem_cons.1 h with rfl | h
    · simp
    · rcases ih h with h | h <;> simp [h]
  | case4 a as b bs _ _ ih =>
    rcases List.mem_cons.1 h with rfl | h
    · simp
    · rcases ih h with h | h
      · exact .inl h
      · simp [h]
  | case5 a as b bs _ _ ih =>
    rcases List.mem_cons.1 h with rfl | h
    · simp
    · rcases ih h with h | h <;> simp [h]

theorem interAscending_sublist (s t : List α) : (interAscending s t).Sublist s := by
  fun_induction interAscending s t with
  | case1 => exact .refl []
  | case2 => exact List.nil_sublist _
  | case3 a as b bs _ ih => exact .cons a ih
  | case4 a as b bs _ _ ih => exact ih
  | case5 a as b bs _ _ ih => exact .cons_cons a ih

variable [LE α] [Std.IsLinearOrder α] [Std.LawfulOrderLT α]

omit [DecidableLT α] in
theorem eq_of_not_lt {a b : α} (hab : ¬ a < b) (hba : ¬ b < a) : a = b := by
  rcases Std.lt_trichotomy a b with h | h | h
  · exact absurd h hab
  · exact h
  · exact absurd h hba

theorem pairwise_insertAscending (a : α) {s : List α} (h : s.Pairwise (· < ·)) :
    (insertAscending a s).Pairwise (· < ·) := by
  induction s with
  | nil => simp [insertAscending]
  | cons b rest ih =>
    have ⟨hb, hrest⟩ := List.pairwise_cons.1 h
    simp only [insertAscending]
    split
    · next hab =>
      refine List.pairwise_cons.2 ⟨fun x hx => ?_, h⟩
      rcases List.mem_cons.1 hx with rfl | hx
      · exact hab
      · exact Std.lt_trans hab (hb x hx)
    · split
      · next hba =>
        refine List.pairwise_cons.2 ⟨fun x hx => ?_, ih hrest⟩
        rcases mem_of_mem_insertAscending hx with rfl | hx
        · exact hba
        · exact hb x hx
      · exact h

theorem mem_insertAscending {a x : α} {s : List α} :
    x ∈ insertAscending a s ↔ x = a ∨ x ∈ s := by
  refine ⟨mem_of_mem_insertAscending, fun h => ?_⟩
  induction s with
  | nil => simpa [insertAscending] using h
  | cons b rest ih =>
    simp only [insertAscending]
    split
    · simpa using h
    · split
      · rcases h with rfl | h
        · exact List.mem_cons_of_mem _ (ih (.inl rfl))
        · rcases List.mem_cons.1 h with rfl | h
          · simp
          · exact List.mem_cons_of_mem _ (ih (.inr h))
      · next hab hba =>
        rcases h with rfl | h
        · simp [eq_of_not_lt hab hba]
        · exact h

theorem mem_unionAscending {x : α} {s t : List α} : x ∈ unionAscending s t ↔ x ∈ s ∨ x ∈ t := by
  refine ⟨mem_of_mem_unionAscending, fun h => ?_⟩
  fun_induction unionAscending s t with
  | case1 => simpa using h
  | case2 => simpa using h
  | case3 a as b bs _ ih => grind
  | case4 a as b bs _ _ ih => grind
  | case5 a as b bs hab hba ih =>
    obtain rfl := eq_of_not_lt hab hba
    grind

theorem pairwise_unionAscending {s t : List α} (hs : s.Pairwise (· < ·)) (ht : t.Pairwise (· < ·)) :
    (unionAscending s t).Pairwise (· < ·) := by
  fun_induction unionAscending s t with
  | case1 => exact ht
  | case2 => exact hs
  | case3 a as b bs hab ih =>
    have ⟨ha, has⟩ := List.pairwise_cons.1 hs
    refine List.pairwise_cons.2 ⟨fun x hx => ?_, ih has ht⟩
    rcases mem_of_mem_unionAscending hx with hx | hx
    · exact ha x hx
    · rcases List.mem_cons.1 hx with rfl | hx
      · exact hab
      · exact Std.lt_trans hab ((List.pairwise_cons.1 ht).1 x hx)
  | case4 a as b bs _ hba ih =>
    have ⟨hb, hbs⟩ := List.pairwise_cons.1 ht
    refine List.pairwise_cons.2 ⟨fun x hx => ?_, ih hs hbs⟩
    rcases mem_of_mem_unionAscending hx with hx | hx
    · rcases List.mem_cons.1 hx with rfl | hx
      · exact hba
      · exact Std.lt_trans hba ((List.pairwise_cons.1 hs).1 x hx)
    · exact hb x hx
  | case5 a as b bs hab hba ih =>
    obtain rfl := eq_of_not_lt hab hba
    have ⟨ha, has⟩ := List.pairwise_cons.1 hs
    have ⟨hb, hbs⟩ := List.pairwise_cons.1 ht
    refine List.pairwise_cons.2 ⟨fun x hx => ?_, ih has hbs⟩
    rcases mem_of_mem_unionAscending hx with hx | hx
    · exact ha x hx
    · exact hb x hx

theorem mem_interAscending {x : α} {s t : List α} (hs : s.Pairwise (· < ·))
    (ht : t.Pairwise (· < ·)) : x ∈ interAscending s t ↔ x ∈ s ∧ x ∈ t := by
  have never {a b : α} {r : List α} (hr : (b :: r).Pairwise (· < ·)) (hab : a < b) :
      a ∉ b :: r := by
    intro h
    rcases List.mem_cons.1 h with rfl | h
    · exact Std.lt_irrefl hab
    · exact Std.lt_irrefl (Std.lt_trans hab ((List.pairwise_cons.1 hr).1 _ h))
  fun_induction interAscending s t with
  | case1 => simp
  | case2 => simp
  | case3 a as b bs hab ih =>
    refine (ih (List.pairwise_cons.1 hs).2 ht).trans
      ⟨fun ⟨h, h'⟩ => ⟨List.mem_cons_of_mem _ h, h'⟩, ?_⟩
    intro ⟨h, h'⟩
    rcases List.mem_cons.1 h with rfl | h
    · exact absurd h' (never ht hab)
    · exact ⟨h, h'⟩
  | case4 a as b bs _ hba ih =>
    refine (ih hs (List.pairwise_cons.1 ht).2).trans
      ⟨fun ⟨h, h'⟩ => ⟨h, List.mem_cons_of_mem _ h'⟩, ?_⟩
    intro ⟨h, h'⟩
    rcases List.mem_cons.1 h' with rfl | h'
    · exact absurd h (never hs hba)
    · exact ⟨h, h'⟩
  | case5 a as b bs hab hba ih =>
    obtain rfl := eq_of_not_lt hab hba
    have ha := (List.pairwise_cons.1 hs).1
    refine (List.mem_cons.trans (or_congr_right
      (ih (List.pairwise_cons.1 hs).2 (List.pairwise_cons.1 ht).2))).trans ?_
    rw [List.mem_cons, List.mem_cons]
    refine ⟨?_, ?_⟩
    · rintro (rfl | ⟨h, h'⟩)
      · simp
      · exact ⟨.inr h, .inr h'⟩
    · rintro ⟨rfl | h, h'⟩
      · exact .inl rfl
      · rcases h' with rfl | h'
        · exact .inl rfl
        · exact .inr ⟨h, h'⟩

/-- A finite set, listed in strictly ascending order. -/
structure OrderedSet (α : Type) [LT α] where
  toList : List α
  ascending : toList.Pairwise (· < ·) := by simp
deriving DecidableEq

namespace OrderedSet

instance : Membership α (OrderedSet α) where
  mem s a := a ∈ s.toList

instance [DecidableEq α] (a : α) (s : OrderedSet α) : Decidable (a ∈ s) :=
  inferInstanceAs (Decidable (a ∈ s.toList))

omit [DecidableLT α] [LE α] [Std.IsLinearOrder α] [Std.LawfulOrderLT α] in
theorem mem_toList {a : α} {s : OrderedSet α} : a ∈ s.toList ↔ a ∈ s := Iff.rfl

def empty : OrderedSet α where
  toList := []

def singleton (a : α) : OrderedSet α where
  toList := [a]

def insert (a : α) (s : OrderedSet α) : OrderedSet α where
  toList := insertAscending a s.toList
  ascending := pairwise_insertAscending a s.ascending

def insertAll (s : OrderedSet α) (members : List α) : OrderedSet α :=
  members.foldl (fun s a => s.insert a) s

def ofList (members : List α) : OrderedSet α :=
  empty.insertAll members

def union (s t : OrderedSet α) : OrderedSet α where
  toList := unionAscending s.toList t.toList
  ascending := pairwise_unionAscending s.ascending t.ascending

def inter (s t : OrderedSet α) : OrderedSet α where
  toList := interAscending s.toList t.toList
  ascending := s.ascending.sublist (interAscending_sublist _ _)

def filter (keep : α → Bool) (s : OrderedSet α) : OrderedSet α where
  toList := s.toList.filter keep
  ascending := s.ascending.filter keep

def diff [DecidableEq α] (s t : OrderedSet α) : OrderedSet α :=
  s.filter fun a => a ∉ t

omit [DecidableLT α] [LE α] [Std.IsLinearOrder α] [Std.LawfulOrderLT α] in
@[simp] theorem mem_empty {a : α} : ¬ a ∈ (empty : OrderedSet α) :=
  List.not_mem_nil

omit [DecidableLT α] [LE α] [Std.IsLinearOrder α] [Std.LawfulOrderLT α] in
@[simp] theorem mem_singleton {a b : α} : a ∈ singleton b ↔ a = b :=
  List.mem_singleton

@[simp] theorem mem_insert {a b : α} {s : OrderedSet α} : a ∈ s.insert b ↔ a = b ∨ a ∈ s :=
  mem_insertAscending

@[simp] theorem mem_insertAll {a : α} {s : OrderedSet α} {members : List α} :
    a ∈ s.insertAll members ↔ a ∈ s ∨ a ∈ members := by
  induction members generalizing s with
  | nil => simp [insertAll]
  | cons b rest ih =>
    rw [show s.insertAll (b :: rest) = (s.insert b).insertAll rest from rfl, ih, mem_insert,
      List.mem_cons, or_comm (a := a = b), or_assoc]

@[simp] theorem mem_ofList {a : α} {members : List α} : a ∈ ofList members ↔ a ∈ members := by
  simp [ofList]

@[simp] theorem mem_union {a : α} {s t : OrderedSet α} : a ∈ s.union t ↔ a ∈ s ∨ a ∈ t :=
  mem_unionAscending

@[simp] theorem mem_inter {a : α} {s t : OrderedSet α} : a ∈ s.inter t ↔ a ∈ s ∧ a ∈ t :=
  mem_interAscending s.ascending t.ascending

omit [DecidableLT α] [LE α] [Std.IsLinearOrder α] [Std.LawfulOrderLT α] in
@[simp] theorem mem_filter {a : α} {keep : α → Bool} {s : OrderedSet α} :
    a ∈ s.filter keep ↔ a ∈ s ∧ keep a :=
  List.mem_filter

omit [DecidableLT α] [LE α] [Std.IsLinearOrder α] [Std.LawfulOrderLT α] in
@[simp] theorem mem_diff [DecidableEq α] {a : α} {s t : OrderedSet α} :
    a ∈ s.diff t ↔ a ∈ s ∧ ¬ a ∈ t := by
  simp [diff]

end OrderedSet

end FirmwareLift
