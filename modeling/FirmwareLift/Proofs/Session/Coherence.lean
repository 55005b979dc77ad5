import FirmwareLift.Proofs.Routine
import FirmwareLift.Proofs.Session.Operations

/-!
# Coherence of sessions

The stage of a session tells what its routines hold. This is true of a new session, and every
operation keeps it true, whether it succeeds or fails and whatever was done before.
-/

namespace FirmwareLift

namespace Routine

/-- Of the routine nothing is known but its range and its name. -/
structure Unanalyzed (f : Routine) : Prop where
  graph : f.graph = .empty
  handler : f.isInterruptHandler = false
  task : f.isTask = false
  pseudocode : f.pseudocode = ""

theorem unanalyzed_toRoutine (bounds : Bounds) : bounds.toRoutine.Unanalyzed :=
  ⟨rfl, rfl, rfl, rfl⟩

theorem definition_ne_empty (f : Routine) (library : IdiomLibrary) :
    f.definition library ≠ "" := by
  intro h
  have hchars : (f.definition library).toList = [] := by
    rw [h]
    rfl
  simp [definition, notes] at hchars

end Routine

namespace Session

/-- What the stage of a session tells about its routines. -/
structure Coherent (s : Session) : Prop where
  early : s.stage.order < Stage.functionsDiscovered.order → s.routines = []
  discovered : s.stage = .functionsDiscovered → ∀ f ∈ s.routines, f.Unanalyzed
  analyzed : Stage.functionsAnalyzed.order ≤ s.stage.order → ∀ f ∈ s.routines,
    f.Analyzed s.image s.descriptor.knownFunctions s.descriptor.analysis.loopHeuristic
  written : s.stage = .decompiled → ∀ f ∈ s.routines, f.pseudocode ≠ ""

variable {s : Session}

theorem coherent_of_nil (h : s.routines = []) : s.Coherent where
  early _ := h
  discovered _ := by simp [h]
  analyzed _ := by simp [h]
  written _ := by simp [h]

theorem coherent_new (d : Descriptor) : (new d).Coherent :=
  coherent_of_nil rfl

/-! ## Stages -/

theorem Coherent.register (h : s.Coherent) (idiom : Idiom) : (s.register idiom).Coherent :=
  ⟨h.early, h.discovered, h.analyzed, h.written⟩

theorem Coherent.entered (h : s.Coherent) : s.entered.Coherent := by
  by_cases hstage : s.stage = .loaded
  · exact coherent_of_nil (h.early (by rw [hstage]; decide))
  · have hentered : s.entered = { s with entry := s.resolvedEntry } := by
      simp only [Session.entered, if_neg hstage]
    rw [hentered]
    exact ⟨h.early, h.discovered, h.analyzed, h.written⟩

theorem coherent_of_bounds (s : Session) (bounds : List Bounds) :
    Coherent { s with routines := bounds.map Bounds.toRoutine, stage := .functionsDiscovered } where
  early h := by simp [Stage.order] at h
  discovered _ f hf := by
    obtain ⟨range, -, rfl⟩ := List.mem_map.1 hf
    exact Routine.unanalyzed_toRoutine range
  analyzed h := by simp [Stage.order] at h
  written h := by cases h

/-- The analysis does not depend on what the routines held before. -/
theorem coherent_of_analyzed (s : Session) :
    Coherent
      { s with routines := s.routines.map s.analyzeRoutine, stage := .functionsAnalyzed } where
  early h := by simp [Stage.order] at h
  discovered h := by cases h
  analyzed _ f hf := by
    obtain ⟨g, -, rfl⟩ := List.mem_map.1 hf
    exact Routine.analyzed_analyze _ _ _ g
  written h := by cases h

/-- A pass that keeps routines analyzed and leaves their pseudocode alone keeps a session coherent. -/
theorem Coherent.map (h : s.Coherent) (hstage : Stage.functionsAnalyzed.order ≤ s.stage.order)
    {pass : Routine → Routine} (hpseudocode : ∀ f, (pass f).pseudocode = f.pseudocode)
    (hanalyzed : ∀ f,
      f.Analyzed s.image s.descriptor.knownFunctions s.descriptor.analysis.loopHeuristic →
        (pass f).Analyzed s.image s.descriptor.knownFunctions
          s.descriptor.analysis.loopHeuristic) :
    Coherent { s with routines := s.routines.map pass } where
  early hearly := absurd (Nat.lt_of_lt_of_le hearly (by decide)) (Nat.not_lt.2 hstage)
  discovered hdiscovered := by
    change s.stage = .functionsDiscovered at hdiscovered
    rw [hdiscovered] at hstage
    exact absurd hstage (by decide)
  analyzed _ f hf := by
    obtain ⟨g, hg, rfl⟩ := List.mem_map.1 hf
    exact hanalyzed g (h.analyzed hstage g hg)
  written hwritten f hf := by
    obtain ⟨g, hg, rfl⟩ := List.mem_map.1 hf
    rw [hpseudocode]
    exact h.written hwritten g hg

theorem Coherent.detectApis (h : s.Coherent) : (s.perform .detectApis).Coherent := by
  refine after_whenAt h fun hstage => ?_
  have hpass : Coherent
      { s with routines := s.routines.map fun f => (s.descriptor.annotateRoutine f).inferSignature } :=
    h.map hstage (fun _ => rfl) fun _ hf => hf.annotateRoutine s.descriptor
  simpa [withRoutines, Descriptor.detectApis, Function.comp_def] using hpass

theorem Coherent.detectTasks (h : s.Coherent) : (s.perform .detectTasks).Coherent := by
  refine after_whenAt h fun hstage => ?_
  refine h.map hstage (fun f => ?_) fun _ hf => hf.markTask _
  obtain ⟨isTask, taskPriority, heq⟩ := f.markTask_eq (s.descriptor.createdTasks s.routines)
  rw [heq]

theorem Coherent.detectHandlers (h : s.Coherent) : (s.perform .detectHandlers).Coherent := by
  refine after_whenAt h fun hstage => ?_
  refine h.map hstage (fun f => ?_) fun _ hf => hf.markHandler _
  obtain ⟨isInterruptHandler, heq⟩ :=
    f.markHandler_eq (s.descriptor.registeredHandlers s.routines)
  rw [heq]

theorem Coherent.writePseudocode (h : s.Coherent)
    (hstage : Stage.functionsAnalyzed.order ≤ s.stage.order) : s.writePseudocode.Coherent where
  early hearly := by simp [Session.writePseudocode, Stage.order] at hearly
  discovered hdiscovered := by cases hdiscovered
  analyzed _ f hf := by
    obtain ⟨g, hg, rfl⟩ := List.mem_map.1 hf
    exact (h.analyzed hstage g hg).remarked _ _ _ _
  written _ f hf := by
    obtain ⟨g, -, rfl⟩ := List.mem_map.1 hf
    exact g.definition_ne_empty s.idioms

theorem coherent_detected (s : Session) : s.detected.Coherent :=
  (coherent_of_analyzed s.discovered).detectApis.detectTasks.detectHandlers

theorem Coherent.decompile (h : s.Coherent) : (s.perform .decompile).Coherent := by
  by_cases hstage : s.stage = .unloaded
  · rw [perform_decompile_of_unloaded hstage]
    exact h
  · rw [perform_decompile hstage]
    exact (coherent_detected s).writePseudocode (by rw [stage_detected])

/-! ## Runs -/

theorem Coherent.perform (h : s.Coherent) (operation : Operation) :
    (s.perform operation).Coherent := by
  cases operation with
  | load bytes => exact coherent_of_nil rfl
  | register idiom => exact h.register idiom
  | analyzeEntry => exact after_whenAt h fun _ => h.entered
  | discover => exact after_whenAt h fun _ => coherent_of_bounds s _
  | analyze => exact after_whenAt h fun _ => coherent_of_analyzed s
  | detectApis => exact h.detectApis
  | detectTasks => exact h.detectTasks
  | detectHandlers => exact h.detectHandlers
  | decompile => exact h.decompile

theorem Coherent.run (h : s.Coherent) (operations : List Operation) :
    (s.run operations).Coherent := by
  induction operations generalizing s with
  | nil => exact h
  | cons operation operations ih => exact ih (h.perform operation)

/-- Whatever is done to a new session, its stage tells what its routines hold. -/
theorem coherent_run (d : Descriptor) (operations : List Operation) :
    ((new d).run operations).Coherent :=
  (coherent_new d).run operations

end Session

end FirmwareLift
