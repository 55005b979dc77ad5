import FirmwareLift.Detection
import FirmwareLift.Proofs.Detection.Constants
import Mathlib.Data.List.Forall2

/-!
# Detection of tasks

A routine becomes a task by a call that creates it, and then has the priority that the last such call
passes, or by its own loops and calls of FreeRTOS. Nothing else about it changes.
-/

namespace FirmwareLift

/-- The calls by their mnemonics, and how far each of them moves the window of registers. -/
def windows : List (String × Nat) :=
  [("call0", 0), ("callx0", 0), ("call4", 4), ("call8", 8), ("callx8", 8), ("call12", 12)]

/-- The constant that a call passes as an argument, counted from `a2` of the window of the call. -/
def Place.argument? (p : Place) (index : Nat) : Option Word :=
  (windows.lookup p.insn.mnemonic).bind fun window =>
    knownConstant? p.before (Operand.register (2 + window + index))

/-- There is a call of FreeRTOS, by its comment. -/
def Routine.NotesFreeRtos (f : Routine) : Prop :=
  ∃ insn ∈ f.graph.instructions, insn.isCall ∧
    ∃ comment ∈ insn.comment, "FreeRTOS".toList <:+: comment.toList

namespace Descriptor

/-- A call creates the task that starts at `entry`. -/
structure CreatesTask (d : Descriptor) (entry : Address) (p : Place) : Prop where
  name : ∃ name ∈ d.calledName? p.insn, "xTaskCreate".toList <+: name.toList
  entry : p.argument? 0 = some entry

/-- Some call in the routines creates the task. -/
def CreatedIn (d : Descriptor) (routines : List Routine) (entry : Address) : Prop :=
  ∃ p ∈ places routines, d.CreatesTask entry p

/-- What the detection of tasks in `routines` makes of one of them. -/
structure MarksTask (d : Descriptor) (routines : List Routine) (f g : Routine) : Prop where
  others : g = { f with isTask := g.isTask, taskPriority := g.taskPriority }
  isTask : g.isTask ↔ f.isTask ∨ d.CreatedIn routines f.start ∨
    ¬ d.CreatedIn routines f.start ∧ f.graph.loops ≠ [] ∧ f.NotesFreeRtos
  priority : ∀ before last after, places routines = before ++ last :: after →
    d.CreatesTask f.start last → (∀ p ∈ after, ¬ d.CreatesTask f.start p) →
      g.taskPriority = last.argument? 4
  otherPriority : ¬ d.CreatedIn routines f.start → g.taskPriority = f.taskPriority

end Descriptor

theorem Routine.callsFreeRtos_iff {f : Routine} : f.callsFreeRtos = true ↔ f.NotesFreeRtos := by
  simp only [callsFreeRtos, Instruction.commentHas, List.any_eq_true, Bool.and_eq_true,
    Option.any_eq_true, Text.contains_iff, NotesFreeRtos, Option.mem_def]

theorem Instruction.callWindow?_eq_lookup (insn : Instruction) :
    insn.callWindow? = windows.lookup insn.mnemonic := by
  unfold callWindow?
  split
  case h_7 => exact (List.lookup_eq_none_iff.2 (by simp_all [windows])).symm
  all_goals
    next hmnemonic =>
      rw [hmnemonic]
      rfl

theorem Constants.argument?_behind (p : Place) (index : Nat) :
    (behind p.before).argument? p.insn index = p.argument? index := by
  rw [argument?, Instruction.argumentRegister?, Option.bind_map, Place.argument?,
    Instruction.callWindow?_eq_lookup]
  congr 1
  funext window
  exact get?_behind p.before _

namespace Descriptor

variable {d : Descriptor} {routines : List Routine} {f : Routine} {entry : Address} {p : Place}

/-! ## Created tasks -/

/-- The task that a place creates with its priority, by the last definitions of the arguments. -/
def created? (d : Descriptor) (p : Place) : Option (Address × Option Word) :=
  d.createdTask? p.insn (.behind p.before)

theorem created?_of_name {name : String} (hname : d.calledName? p.insn = some name)
    (hbegins : "xTaskCreate".toList.isPrefixOf name.toList = true) :
    d.created? p = (p.argument? 0).map fun start => (start, p.argument? 4) := by
  rw [created?, createdTask?, hname, Option.bind_eq_bind, Option.bind_some, hbegins,
    ← Constants.argument?_behind, ← Constants.argument?_behind]
  cases (Constants.behind p.before).argument? p.insn 0 <;> rfl

theorem exists_name_of_created? (h : d.created? p ≠ none) :
    ∃ name, d.calledName? p.insn = some name ∧
      "xTaskCreate".toList.isPrefixOf name.toList = true := by
  rw [created?, createdTask?, Option.bind_eq_bind] at h
  cases hname : d.calledName? p.insn with
  | none =>
      rw [hname, Option.bind_none] at h
      exact absurd rfl h
  | some name =>
      rw [hname, Option.bind_some] at h
      cases hbegins : "xTaskCreate".toList.isPrefixOf name.toList with
      | true => exact ⟨name, rfl, hbegins⟩
      | false =>
          rw [hbegins] at h
          exact absurd rfl h

theorem created?_eq_some_iff {priority : Option Word} :
    d.created? p = some (entry, priority) ↔ d.CreatesTask entry p ∧ p.argument? 4 = priority := by
  constructor
  · intro h
    obtain ⟨name, hname, hbegins⟩ := exists_name_of_created? (by rw [h]; simp)
    rw [created?_of_name hname hbegins] at h
    obtain ⟨start, hstart, heq⟩ := Option.map_eq_some_iff.1 h
    cases heq
    exact ⟨⟨⟨name, hname, List.isPrefixOf_iff_prefix.1 hbegins⟩, hstart⟩, rfl⟩
  · rintro ⟨⟨⟨name, hname, hbegins⟩, hentry⟩, rfl⟩
    rw [created?_of_name hname (List.isPrefixOf_iff_prefix.2 hbegins), hentry, Option.map_some]

theorem createdTasks_eq (d : Descriptor) (routines : List Routine) :
    d.createdTasks routines = .ofList ((places routines).filterMap d.created?) := by
  rw [createdTasks, flatMap_withConstants, List.filterMap_map]
  rfl

/-- No entry of the list that the map of tasks is made of has the address. -/
theorem filter_created_eq_nil_iff {ps : List Place} :
    ((ps.filterMap d.created?).filter fun task => task.1 = entry) = [] ↔
      ∀ p ∈ ps, ¬ d.CreatesTask entry p := by
  rw [List.filter_eq_nil_iff]
  constructor
  · intro h p hp hcreates
    have hmem : (entry, p.argument? 4) ∈ ps.filterMap d.created? :=
      List.mem_filterMap.2 ⟨p, hp, created?_eq_some_iff.2 ⟨hcreates, rfl⟩⟩
    exact h _ hmem (decide_eq_true rfl)
  · rintro h ⟨start, priority⟩ hmem heq
    obtain ⟨p, hp, hcreated⟩ := List.mem_filterMap.1 hmem
    obtain rfl : start = entry := of_decide_eq_true heq
    exact h p hp (created?_eq_some_iff.1 hcreated).1

theorem get?_createdTasks_eq_none_iff :
    (d.createdTasks routines).get? entry = none ↔ ¬ d.CreatedIn routines entry := by
  rw [createdTasks_eq, OrderedMap.get?_ofList, Option.map_eq_none_iff, List.getLast?_eq_none_iff,
    filter_created_eq_nil_iff]
  simp only [CreatedIn, not_exists, not_and]

/-- The last call that creates a task tells its priority. -/
theorem get?_createdTasks_of_last {before after : List Place}
    (hplaces : places routines = before ++ p :: after) (hp : d.CreatesTask entry p)
    (hafter : ∀ p ∈ after, ¬ d.CreatesTask entry p) :
    (d.createdTasks routines).get? entry = some (p.argument? 4) := by
  have hcreated : d.created? p = some (entry, p.argument? 4) := created?_eq_some_iff.2 ⟨hp, rfl⟩
  rw [createdTasks_eq, OrderedMap.get?_ofList, hplaces, List.filterMap_append,
    List.filterMap_cons_some hcreated, List.filter_append, List.filter_cons_of_pos (by simp),
    filter_created_eq_nil_iff.2 hafter]
  simp

/-! ## Marks -/

theorem marksTask_of_created (h : d.CreatedIn routines f.start) :
    d.MarksTask routines f (f.markTask (d.createdTasks routines)) := by
  cases hcreated : (d.createdTasks routines).get? f.start with
  | none => exact absurd h (get?_createdTasks_eq_none_iff.1 hcreated)
  | some priority =>
      have hmark : f.markTask (d.createdTasks routines) =
          { f with isTask := true, taskPriority := priority } := by
        rw [Routine.markTask, hcreated]
      rw [hmark]
      refine ⟨rfl, iff_of_true rfl (.inr (.inl h)), fun before last after hplaces hlast hafter => ?_,
        fun hnot => absurd h hnot⟩
      rw [get?_createdTasks_of_last hplaces hlast hafter] at hcreated
      exact (Option.some.inj hcreated).symm

theorem marksTask_of_not_created (h : ¬ d.CreatedIn routines f.start) :
    d.MarksTask routines f (f.markTask (d.createdTasks routines)) := by
  have hmark : f.markTask (d.createdTasks routines) =
      if !f.graph.loops.isEmpty && f.callsFreeRtos then { f with isTask := true } else f := by
    rw [Routine.markTask, get?_createdTasks_eq_none_iff.2 h]
  have hloops : (!f.graph.loops.isEmpty && f.callsFreeRtos) = true ↔
      f.graph.loops ≠ [] ∧ f.NotesFreeRtos := by
    simp [Routine.callsFreeRtos_iff]
  have hlast : ∀ before last after, places routines = before ++ last :: after →
      ¬ d.CreatesTask f.start last := fun before last after hplaces hcreates =>
    h ⟨last, hplaces ▸ List.mem_append_right before List.mem_cons_self, hcreates⟩
  rw [hmark]
  refine ⟨?_, ?_, fun before last after hplaces hcreates =>
    absurd hcreates (hlast before last after hplaces), fun _ => ?_⟩
  · split <;> rfl
  · split
    · next hmarked => exact iff_of_true rfl (.inr (.inr ⟨h, hloops.1 hmarked⟩))
    · next hmarked => simp [h, mt hloops.2 hmarked]
  · split <;> rfl

/--
The tasks are those routines that were marked before, those that a call creates, and those others
that loop and call FreeRTOS. The last call that creates a task gives its priority, or takes it.
-/
theorem detects_tasks (d : Descriptor) (routines : List Routine) :
    List.Forall₂ (d.MarksTask routines) routines (d.detectTasks routines).2 ∧
      (d.detectTasks routines).1 = (d.detectTasks routines).2.countP (·.isTask) := by
  refine ⟨?_, rfl⟩
  rw [detectTasks, List.forall₂_map_right_iff]
  refine List.forall₂_same.2 fun f _ => ?_
  by_cases h : d.CreatedIn routines f.start
  · exact marksTask_of_created h
  · exact marksTask_of_not_created h

/-- A block that creates a task with priority 5, and another one with a priority that it computes. -/
def creator : Routine where
  start := 0x400d0000
  stop := 0x400d001c
  name := "app_main"
  graph := { blocks := [{
    id := 0, start := 0x400d0000, last := 0x400d0018
    instructions := [
      ⟨0x400d0000, 0, "l32r", ["a10", "0x400d0100"], none⟩,
      ⟨0x400d0004, 0, "movi", ["a14", "5"], none⟩,
      ⟨0x400d0008, 0, "call8", ["xTaskCreate"], none⟩,
      ⟨0x400d000c, 0, "l32r", ["a10", "0x400d0200"], none⟩,
      ⟨0x400d0010, 0, "call8", ["xTaskCreate"], none⟩,
      ⟨0x400d0014, 0, "addi", ["a14", "a14", "1"], none⟩,
      ⟨0x400d0018, 0, "call8", ["xTaskCreatePinnedToCore"], none⟩] }] }

/-- Of the two calls for the second task, the later one takes the priority away. -/
example :
    let worker : Routine := { start := 0x400d0100, stop := 0x400d0104, name := "worker" }
    let idle : Routine := { start := 0x400d0200, stop := 0x400d0204, name := "idle" }
    ((esp32.detectTasks [creator, worker, idle]).2.map fun f => (f.isTask, f.taskPriority)) =
      [(false, none), (true, some 5), (true, none)] := by
  decide +kernel

end Descriptor

end FirmwareLift
