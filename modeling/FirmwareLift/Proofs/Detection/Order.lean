import FirmwareLift.Proofs.Detection.Usage

/-!
# Order of the detection passes

The search for interrupt handlers may run before or after the other passes. A call is known by the
same name whether it has its comment yet or not, and the passes set marks that the others do not
look at. Each pass, run again at once, changes nothing more.
-/

namespace FirmwareLift

/-- What goes over all routines and returns a number beside them. -/
abbrev DetectionPass := List Routine → Nat × List Routine

namespace DetectionPass

/-- Either order leaves the same routines, and each pass returns the same number first or second. -/
structure Commutes (pass other : DetectionPass) (routines : List Routine) : Prop where
  result : (other (pass routines).2).2 = (pass (other routines).2).2
  number : (pass (other routines).2).1 = (pass routines).1
  otherNumber : (other (pass routines).2).1 = (other routines).1

/-- A second run leaves the routines as they are behind the first one. -/
def IdleAgain (pass : DetectionPass) (routines : List Routine) : Prop :=
  (pass (pass routines).2).2 = (pass routines).2

end DetectionPass

/-! ## Names of calls -/

namespace Descriptor

variable (d : Descriptor) (insn : Instruction) (known : Constants)

theorem annotate_of_commented (h : insn.comment ≠ none) : (d.annotate insn known).1 = insn := by
  obtain ⟨comment, hcomment⟩ := Option.ne_none_iff_exists'.1 h
  unfold annotate
  split
  · rw [Instruction.annotate, hcomment, Option.some_or, ← hcomment]
  · rfl

theorem target?_annotate : (d.annotate insn known).1.target? = insn.target? :=
  d.view_annotate insn known Instruction.target? fun _ => rfl

theorem argumentRegister?_annotate (index : Nat) :
    (d.annotate insn known).1.argumentRegister? index = insn.argumentRegister? index :=
  d.view_annotate insn known (·.argumentRegister? index) fun _ => rfl

variable {d insn known}

/-- The comment of a call that goes to a symbol holds that symbol, so it shows the same name. -/
theorem displayName?_annotate (hcall : insn.isCall = true) (htarget : insn.target? = none) :
    (d.annotate insn known).1.displayName? = insn.displayName? := by
  cases hcomment : insn.comment with
  | some comment => rw [annotate_of_commented d insn known (by simp [hcomment])]
  | none =>
      have hname : d.operandName? insn = insn.displayName? := by
        rw [operandName?, htarget, Instruction.displayName?, hcomment]
        rfl
      have hnote : d.note? known insn = insn.displayName?.bind d.callNote? := by
        rw [note?_of_isCall hcomment hcall, hname]
      cases hshown : insn.displayName?.bind d.callNote? with
      | none => rw [annotate, hnote, hshown]
      | some note =>
          obtain ⟨name, hdisplay, hnoted⟩ := Option.bind_eq_some_iff.1 hshown
          obtain ⟨family, -, rfl⟩ := Option.map_eq_some_iff.1 hnoted
          have hcommented : (d.annotate insn known).1.comment = some s!"{family}: {name}" := by
            rw [comment_annotate_of_uncommented hcomment, hnote, hshown]
          rw [hdisplay]
          exact Instruction.displayName?_of_comment hcommented
            (Instruction.isIdentifier_of_displayName? hdisplay)

/-- A call is known by the same name before and after it gets a comment. -/
theorem calledName?_annotate : d.calledName? (d.annotate insn known).1 = d.calledName? insn := by
  rw [calledName?, calledName?, isCall_annotate, target?_annotate]
  cases hcall : insn.isCall with
  | false => rfl
  | true =>
      cases htarget : insn.target? with
      | some address => rfl
      | none => exact displayName?_annotate hcall htarget

theorem registeredHandler?_annotate (before : Constants) :
    d.registeredHandler? (d.annotate insn known).1 before = d.registeredHandler? insn before := by
  have hargument : before.argument? (d.annotate insn known).1 = before.argument? insn := by
    funext index
    rw [Constants.argument?, Constants.argument?, argumentRegister?_annotate]
  rw [registeredHandler?, registeredHandler?, calledName?_annotate, hargument]

/-- The comments do not change which handlers calls register. -/
theorem registeredHandlers_detectApis (d : Descriptor) (routines : List Routine) :
    d.registeredHandlers (d.detectApis routines).2 = d.registeredHandlers routines := by
  change (sites _).filterMap _ = (sites _).filterMap _
  rw [sites_detectApis, List.filterMap_map]
  exact List.filterMap_congr fun site _ => registeredHandler?_annotate site.2

end Descriptor

/-! ## Marks -/

namespace Routine

variable (f : Routine) (registered : List Address) (created : CreatedTasks)

theorem graph_markHandler : (f.markHandler registered).graph = f.graph := by
  rw [markHandler_eq_or]

theorem graph_markTask : (f.markTask created).graph = f.graph := by
  rw [markTask_eq_or]

theorem handlesInterrupts_markTask :
    (f.markTask created).handlesInterrupts registered = f.handlesInterrupts registered := by
  rw [markTask_eq_or]
  rfl

theorem isTask_markTask_markHandler :
    ((f.markHandler registered).markTask created).isTask = (f.markTask created).isTask := by
  rw [markHandler_eq_or, markTask_eq_or, markTask_eq_or]
  rfl

theorem markTask_markHandler :
    (f.markHandler registered).markTask created = (f.markTask created).markHandler registered := by
  simp only [markHandler_eq_or, markTask_eq_or]
  rfl

/-- What is set is set again, by the same instructions, address and name. -/
theorem markHandler_markHandler :
    (f.markHandler registered).markHandler registered = f.markHandler registered := by
  rw [markHandler_eq_or f, markHandler_eq_or]
  simp [handlesInterrupts, Bool.or_assoc]

theorem markTask_markTask : (f.markTask created).markTask created = f.markTask created := by
  rw [markTask_eq_or f, markTask_eq_or]
  cases created.get? f.start with
  | none => simp [callsFreeRtos]
  | some priority => simp

theorem handlesInterrupts_annotateRoutine (d : Descriptor) :
    (d.annotateRoutine f).handlesInterrupts registered = f.handlesInterrupts registered := by
  have hreturns : ∀ f : Routine, f.graph.instructions.any (fun insn => insn.mnemonic = "rfe") =
      f.graph.bare.instructions.any (fun insn => insn.mnemonic = "rfe") := by
    intro f
    rw [FlowGraph.instructions_bare, List.any_map]
    rfl
  rw [handlesInterrupts, hreturns, d.bare_annotateRoutine, ← hreturns]
  rfl

theorem markHandler_annotateRoutine (d : Descriptor) :
    (d.annotateRoutine f).markHandler registered = d.annotateRoutine (f.markHandler registered) := by
  rw [markHandler_eq_or, handlesInterrupts_annotateRoutine, markHandler_eq_or]
  rfl

end Routine

/-! ## All routines -/

/-- Marking leaves the instructions and what is known before them alone. -/
theorem sites_map {mark : Routine → Routine} (hmark : ∀ f, (mark f).graph = f.graph)
    (routines : List Routine) : sites (routines.map mark) = sites routines := by
  simp only [sites, List.flatMap_map, hmark]

namespace Descriptor

variable (d : Descriptor) (routines : List Routine)

theorem registeredHandlers_map {mark : Routine → Routine} (hmark : ∀ f, (mark f).graph = f.graph) :
    d.registeredHandlers (routines.map mark) = d.registeredHandlers routines :=
  congrArg (List.filterMap _) (sites_map hmark routines)

theorem createdTasks_map {mark : Routine → Routine} (hmark : ∀ f, (mark f).graph = f.graph) :
    d.createdTasks (routines.map mark) = d.createdTasks routines :=
  congrArg (OrderedMap.ofList <| List.filterMap _ ·) (sites_map hmark routines)

/-- Which routines are handlers does not depend on the comments, nor the comments on the marks. -/
theorem detectHandlers_commutes_detectApis :
    DetectionPass.Commutes d.detectHandlers d.detectApis routines := by
  have hregistered : d.registeredHandlers (routines.map d.annotateRoutine) =
      d.registeredHandlers routines := d.registeredHandlers_detectApis routines
  constructor
  · simp only [detectApis, detectHandlers, hregistered, List.map_map, Function.comp_def,
      Routine.markHandler_annotateRoutine]
  · simp only [detectApis, detectHandlers, hregistered, List.countP_map, Function.comp_def,
      Routine.handlesInterrupts_annotateRoutine]
  · change (d.annotated (sites _)).countP _ = (d.annotated (sites _)).countP _
    rw [detectHandlers, sites_map fun f => f.graph_markHandler _]

/-- The two passes set different marks, and neither looks at the mark of the other. -/
theorem detectHandlers_commutes_detectTasks :
    DetectionPass.Commutes d.detectHandlers d.detectTasks routines := by
  have hregistered := d.registeredHandlers_map routines fun f =>
    f.graph_markTask (d.createdTasks routines)
  have hcreated := d.createdTasks_map routines fun f =>
    f.graph_markHandler (d.registeredHandlers routines)
  constructor
  · simp only [detectHandlers, detectTasks, hregistered, hcreated, List.map_map, Function.comp_def,
      Routine.markTask_markHandler]
  · simp only [detectHandlers, detectTasks, hregistered, List.countP_map, Function.comp_def,
      Routine.handlesInterrupts_markTask]
  · simp only [detectHandlers, detectTasks, hcreated, List.countP_map, List.map_map,
      Function.comp_def, Routine.isTask_markTask_markHandler]

theorem detectApis_idleAgain : DetectionPass.IdleAgain d.detectApis routines := by
  rw [DetectionPass.IdleAgain, detectApis_detectApis]

theorem detectTasks_idleAgain : DetectionPass.IdleAgain d.detectTasks routines := by
  have hcreated := d.createdTasks_map routines fun f =>
    f.graph_markTask (d.createdTasks routines)
  simp only [DetectionPass.IdleAgain, detectTasks, hcreated, List.map_map, Function.comp_def,
    Routine.markTask_markTask]

theorem detectHandlers_idleAgain : DetectionPass.IdleAgain d.detectHandlers routines := by
  have hregistered := d.registeredHandlers_map routines fun f =>
    f.graph_markHandler (d.registeredHandlers routines)
  simp only [DetectionPass.IdleAgain, detectHandlers, hregistered, List.map_map, Function.comp_def,
    Routine.markHandler_markHandler]

/--
The search for handlers commutes with the annotation of calls and stores and with the search for
tasks, and none of the three changes anything when it runs a second time.
-/
theorem handlers_commute :
    DetectionPass.Commutes d.detectHandlers d.detectApis routines ∧
      DetectionPass.Commutes d.detectHandlers d.detectTasks routines ∧
      DetectionPass.IdleAgain d.detectApis routines ∧
      DetectionPass.IdleAgain d.detectTasks routines ∧
      DetectionPass.IdleAgain d.detectHandlers routines :=
  ⟨d.detectHandlers_commutes_detectApis routines, d.detectHandlers_commutes_detectTasks routines,
    d.detectApis_idleAgain routines, d.detectTasks_idleAgain routines,
    d.detectHandlers_idleAgain routines⟩

end Descriptor

end FirmwareLift
