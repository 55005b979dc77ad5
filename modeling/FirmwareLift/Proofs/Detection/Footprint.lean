import FirmwareLift.Proofs.Detection.Annotation
import Mathlib.Data.List.Forall2

/-!
# Footprint of detection

What a sequence of detection passes may leave in the routines: first comments on calls and stores,
and marks of tasks and interrupt handlers. All else stays, and the flow sets that are computed
afterwards are those that were computed before.
-/

namespace FirmwareLift

/-- The other instruction is this one, but for a first comment that a call or a store may have got. -/
structure Instruction.AnnotatedAs (insn other : Instruction) : Prop where
  others : other = { insn with comment := other.comment }
  kept : ∀ comment ∈ insn.comment, other.comment = some comment
  added : other.comment ≠ insn.comment → insn.isCall ∨ insn.isStore

/-- The other block is this one, but for comments of its instructions. -/
structure Block.AnnotatedAs (b other : Block) : Prop where
  others : other = { b with instructions := other.instructions }
  instructions : List.Forall₂ Instruction.AnnotatedAs b.instructions other.instructions

/--
The other routine is this one, but for comments of its instructions and for marks, of which none is
lost. Flow sets that are computed anew, and the passes that this takes, are the same for both.
-/
structure Routine.AnnotatedAs (f other : Routine) : Prop where
  others : other = { f with
    graph := { f.graph with blocks := other.graph.blocks }
    isInterruptHandler := other.isInterruptHandler
    isTask := other.isTask
    taskPriority := other.taskPriority }
  blocks : List.Forall₂ Block.AnnotatedAs f.graph.blocks other.graph.blocks
  isInterruptHandler : f.isInterruptHandler → other.isInterruptHandler
  isTask : f.isTask → other.isTask
  reaching : (Dataflow.start other.graph).runReaching other.graph =
    (Dataflow.start f.graph).runReaching f.graph
  live : (Dataflow.start other.graph).runLive other.graph =
    (Dataflow.start f.graph).runLive f.graph

/-- What may be done with the routines of a session, any number of times and in any order. -/
inductive Detection where
  | apis
  | tasks
  | handlers
  | usage
deriving DecidableEq

namespace Descriptor

variable (d : Descriptor)

/-- The routines behind one pass; to count the usage of the API is to read them only. -/
def detect : Detection → List Routine → List Routine
  | .apis, routines => (d.detectApis routines).2
  | .tasks, routines => (d.detectTasks routines).2
  | .handlers, routines => (d.detectHandlers routines).2
  | .usage, routines => routines

def detectAll (passes : List Detection) (routines : List Routine) : List Routine :=
  passes.foldl (fun routines pass => d.detect pass routines) routines

end Descriptor

/-! ## Two steps in a row -/

theorem forall₂_trans {α : Type} {R : α → α → Prop} (htrans : ∀ a b c, R a b → R b c → R a c)
    {l m n : List α} (hlm : List.Forall₂ R l m) (hmn : List.Forall₂ R m n) :
    List.Forall₂ R l n := by
  induction hlm generalizing n with
  | nil => exact hmn
  | cons hab _ ih =>
      cases hmn with
      | cons hbc hrest => exact .cons (htrans _ _ _ hab hbc) (ih hrest)

theorem Instruction.AnnotatedAs.refl (insn : Instruction) : insn.AnnotatedAs insn :=
  ⟨rfl, fun _ h => h, fun h => absurd rfl h⟩

theorem Instruction.AnnotatedAs.trans {insn other third : Instruction}
    (h : insn.AnnotatedAs other) (h' : other.AnnotatedAs third) : insn.AnnotatedAs third where
  others := by
    rw [h'.others, h.others]
  kept comment hcomment := h'.kept comment (h.kept comment hcomment)
  added hne := by
    by_cases hother : other.comment = insn.comment
    · have hadded := h'.added (hother ▸ hne)
      rw [h.others] at hadded
      exact hadded
    · exact h.added hother

theorem Block.AnnotatedAs.refl (b : Block) : b.AnnotatedAs b :=
  ⟨rfl, List.forall₂_same.2 fun insn _ => .refl insn⟩

theorem Block.AnnotatedAs.trans {b other third : Block} (h : b.AnnotatedAs other)
    (h' : other.AnnotatedAs third) : b.AnnotatedAs third where
  others := by
    rw [h'.others, h.others]
  instructions := forall₂_trans (fun _ _ _ => .trans) h.instructions h'.instructions

namespace Routine

variable {f other third : Routine}

theorem AnnotatedAs.trans (h : f.AnnotatedAs other) (h' : other.AnnotatedAs third) :
    f.AnnotatedAs third where
  others := by
    rw [h'.others, h.others]
  blocks := forall₂_trans (fun _ _ _ => .trans) h.blocks h'.blocks
  isInterruptHandler hmark := h'.isInterruptHandler (h.isInterruptHandler hmark)
  isTask hmark := h'.isTask (h.isTask hmark)
  reaching := h'.reaching.trans h.reaching
  live := h'.live.trans h.live

/-- Marks that are set, or a priority that changes, leave the graph as it is. -/
theorem annotatedAs_of_marks {isInterruptHandler isTask : Bool} {taskPriority : Option Word}
    (hhandler : f.isInterruptHandler → isInterruptHandler) (htask : f.isTask → isTask) :
    f.AnnotatedAs { f with isInterruptHandler, isTask, taskPriority } where
  others := rfl
  blocks := List.forall₂_same.2 fun b _ => .refl b
  isInterruptHandler := hhandler
  isTask := htask
  reaching := rfl
  live := rfl

theorem AnnotatedAs.refl (f : Routine) : f.AnnotatedAs f :=
  annotatedAs_of_marks id id

theorem annotatedAs_markTask (created : CreatedTasks) : f.AnnotatedAs (f.markTask created) := by
  rw [markTask_eq_or]
  exact annotatedAs_of_marks id fun h => by simp [h]

theorem annotatedAs_markHandler (registered : List Address) :
    f.AnnotatedAs (f.markHandler registered) := by
  rw [markHandler_eq_or]
  exact annotatedAs_of_marks (fun h => by simp [h]) id

end Routine

/-! ## Comments -/

namespace Descriptor

variable {d : Descriptor}

theorem isCall_or_isStore_of_note? {insn : Instruction} {known : Constants}
    (h : d.note? known insn ≠ none) : insn.isCall ∨ insn.isStore := by
  by_contra hneither
  obtain ⟨hcall, hstore⟩ := not_or.1 hneither
  simp [note?, calledName?, hcall, hstore] at h

theorem annotatedAs_annotate (insn : Instruction) (known : Constants) :
    insn.AnnotatedAs (d.annotate insn known).1 where
  others := by
    unfold annotate
    split <;> rfl
  kept comment hcomment := by
    rw [comment_annotate, Option.mem_def.1 hcomment, Option.some_or]
  added hne := by
    have hnote : d.note? known insn ≠ none := fun hnone => hne <| by
      rw [comment_annotate, hnone, Option.or_none]
    exact isCall_or_isStore_of_note? hnote

theorem annotatedAs_annotateBlock (b : Block) : b.AnnotatedAs (d.annotateBlock b) where
  others := rfl
  instructions := by
    have hsites : b.instructions = b.withConstants.map (·.1) :=
      (Constants.map_fst_scan .empty b.instructions).symm
    rw [annotateBlock, annotated, List.map_map, hsites, List.forall₂_map_left_iff,
      List.forall₂_map_right_iff]
    exact List.forall₂_same.2 fun site _ => annotatedAs_annotate site.1 site.2

/-- The flow sets are those of the graph without comments, which stays the same. -/
theorem annotatedAs_annotateRoutine (f : Routine) : f.AnnotatedAs (d.annotateRoutine f) where
  others := rfl
  blocks := by
    rw [annotateRoutine, List.forall₂_map_right_iff]
    exact List.forall₂_same.2 fun b _ => annotatedAs_annotateBlock b
  isInterruptHandler := id
  isTask := id
  reaching := by
    rw [← FlowGraph.runReaching_bare, d.bare_annotateRoutine, FlowGraph.runReaching_bare]
  live := by
    rw [← FlowGraph.runLive_bare, d.bare_annotateRoutine, FlowGraph.runLive_bare]

/-! ## Passes -/

theorem annotatedAs_detect (pass : Detection) (routines : List Routine) :
    List.Forall₂ Routine.AnnotatedAs routines (d.detect pass routines) := by
  cases pass with
  | apis =>
      rw [detect, detectApis, List.forall₂_map_right_iff]
      exact List.forall₂_same.2 fun f _ => annotatedAs_annotateRoutine f
  | tasks =>
      rw [detect, detectTasks, List.forall₂_map_right_iff]
      exact List.forall₂_same.2 fun f _ => f.annotatedAs_markTask _
  | handlers =>
      rw [detect, detectHandlers, List.forall₂_map_right_iff]
      exact List.forall₂_same.2 fun f _ => f.annotatedAs_markHandler _
  | usage => exact List.forall₂_same.2 fun f _ => .refl f

/-- Whatever passes run over whatever routines, they only annotate the routines. -/
theorem detectAll_annotates (d : Descriptor) (passes : List Detection) (routines : List Routine) :
    List.Forall₂ Routine.AnnotatedAs routines (d.detectAll passes routines) := by
  induction passes generalizing routines with
  | nil => exact List.forall₂_same.2 fun f _ => .refl f
  | cons pass passes ih =>
      exact forall₂_trans (fun _ _ _ => .trans) (annotatedAs_detect pass routines)
        (ih (d.detect pass routines))

end Descriptor

end FirmwareLift
