import FirmwareLift.FlowGraph.Loops
import FirmwareLift.Proofs.FlowGraph.Reachable

/-!
# What a flood reaches

A flood marks the ids at the ends of paths that come from the work and go through ids without a
mark. In a graph whose edges stay inside it, these are the ids that can be reached.
-/

namespace FirmwareLift

/-- A path either avoids an id or can be cut down to what follows its last visit there. -/
theorem exists_path_avoiding {α : Type} {R : α → α → Prop} {a b : α} (id : α)
    (h : Relation.ReflTransGen R a b) (hb : b ≠ id) :
    Relation.ReflTransGen (fun x y => x ≠ id ∧ R x y) a b ∨
      ∃ c, R id c ∧ Relation.ReflTransGen (fun x y => x ≠ id ∧ R x y) c b := by
  induction h with
  | refl => exact .inl .refl
  | @tail x y _ hxy ih =>
      by_cases hx : x = id
      · exact .inr ⟨y, hx ▸ hxy, .refl⟩
      · rcases ih hx with hpath | ⟨c, hc, hpath⟩
        · exact .inl (hpath.tail ⟨hx, hxy⟩)
        · exact .inr ⟨c, hc, hpath.tail ⟨hx, hxy⟩⟩

namespace Marks

variable {next : Nat → List Nat} {marks : Marks} {work : List Nat} {id : Nat}

/-- A step from an id that has no mark yet. -/
def Steps (next : Nat → List Nat) (marks : Marks) (a b : Nat) : Prop :=
  marks[a]? = some false ∧ b ∈ next a

theorem steps_set (hid : id < marks.size) :
    Steps next (marks.set id true) = fun a b => a ≠ id ∧ Steps next marks a b := by
  funext a b
  by_cases h : id = a
  · simp [Steps, ← h]
  · simp [Steps, h, Ne.symm h]

/-- Where no step leads on, a path ends where it starts. -/
theorem eq_of_steps {a : Nat} (ha : marks[a]? ≠ some false)
    (h : Relation.ReflTransGen (Steps next marks) a id) : a = id := by
  rcases Relation.ReflTransGen.cases_head h with heq | ⟨b, hstep, -⟩
  · exact heq
  · exact absurd hstep.1 ha

/-- An id that may not be left adds no path to an id without a mark. -/
theorem exists_path_cons_iff {a : Nat} (ha : marks[a]? ≠ some false) :
    (marks[id]? = some false ∧
        ∃ b ∈ a :: work, Relation.ReflTransGen (Steps next marks) b id) ↔
      marks[id]? = some false ∧ ∃ b ∈ work, Relation.ReflTransGen (Steps next marks) b id := by
  refine and_congr_right fun hid => ?_
  rw [List.exists_mem_cons_iff]
  refine or_iff_right fun hpath => ?_
  rw [eq_of_steps ha hpath] at ha
  exact ha hid

/-- Once an id is marked, the ids behind it stand for the paths that went through it. -/
theorem exists_path_set_iff {a : Nat} (ha : a < marks.size) (hmark : marks[a]? = some false)
    (hne : id ≠ a) :
    (∃ b ∈ next a ++ work, Relation.ReflTransGen (Steps next (marks.set a true)) b id) ↔
      ∃ b ∈ a :: work, Relation.ReflTransGen (Steps next marks) b id := by
  rw [steps_set ha]
  constructor
  · rintro ⟨b, hb, hpath⟩
    have hpath : Relation.ReflTransGen (Steps next marks) b id :=
      Relation.ReflTransGen.mono (fun _ _ hstep => hstep.2) _ _ hpath
    rcases List.mem_append.1 hb with hb | hb
    · exact ⟨a, List.mem_cons_self, hpath.head ⟨hmark, hb⟩⟩
    · exact ⟨b, List.mem_cons_of_mem _ hb, hpath⟩
  · rintro ⟨b, hb, hpath⟩
    rcases exists_path_avoiding a hpath hne with hpath | ⟨c, hc, hpath⟩
    · rcases List.mem_cons.1 hb with rfl | hb
      · rcases Relation.ReflTransGen.cases_head hpath with hend | ⟨c, hstep, -⟩
        · exact absurd hend.symm hne
        · exact absurd rfl hstep.1
      · exact ⟨b, List.mem_append_right _ hb, hpath⟩
    · exact ⟨c, List.mem_append_left _ hc.2, hpath⟩

theorem getElem?_flood :
    (flood next marks work)[id]? = some true ↔
      marks[id]? = some true ∨
        marks[id]? = some false ∧ ∃ a ∈ work, Relation.ReflTransGen (Steps next marks) a id := by
  fun_induction flood next marks work with
  | case1 marks => simp
  | case2 marks a work ha hmark _ ih =>
      have ha' : marks[a]? = some false := by rw [Array.getElem?_eq_getElem ha, hmark]
      refine Iff.trans ih ?_
      by_cases heq : id = a
      · subst heq
        rw [Array.getElem?_set_self]
        exact iff_of_true (.inl rfl) (.inr ⟨ha', id, List.mem_cons_self, .refl⟩)
      · rw [Array.getElem?_set_ne ha (Ne.symm heq), exists_path_set_iff ha ha' heq]
  | case3 marks a work ha hmark ih =>
      refine Iff.trans ih (or_congr_right (exists_path_cons_iff ?_).symm)
      simpa [Array.getElem?_eq_getElem ha] using hmark
  | case4 marks a work ha ih =>
      refine Iff.trans ih (or_congr_right (exists_path_cons_iff ?_).symm)
      simp [Array.getElem?_eq_none (Nat.not_lt.1 ha)]

end Marks

namespace FlowGraph

variable {g : FlowGraph} {start id : BlockId}

theorem mem_reachableFrom (hedges : ∀ a, ∀ b ∈ g.successors a, b < g.count)
    (hstart : start < g.count) : id ∈ g.reachableFrom start ↔ g.Reaches start id := by
  have hsteps : Marks.Steps g.successors (.ofCount g.count) = g.Leads := by
    funext a b
    rw [Marks.Steps, Marks.ofCount, Array.getElem?_replicate, Leads]
    by_cases ha : a < g.count
    · simp [ha]
    · simp [successors_eq_nil (Nat.not_lt.1 ha)]
  have hlt : g.Reaches start id → id < g.count := by
    intro h
    rcases Relation.ReflTransGen.cases_tail h with rfl | ⟨b, -, hb⟩
    · exact hstart
    · exact hedges b id hb
  rw [reachableFrom, Marks.mem_ids, Marks.getElem?_flood, hsteps]
  simp only [Marks.ofCount, Array.getElem?_replicate, List.mem_singleton, exists_eq_left]
  constructor
  · rintro (h | ⟨-, h⟩)
    · split at h <;> cases h
    · exact h
  · intro h
    exact .inr ⟨if_pos (hlt h), h⟩

end FlowGraph

end FirmwareLift
