import FirmwareLift.Proofs.Routine
import FirmwareLift.Proofs.Session.Operations

/-!
# Located routines

Whatever is done to a session, its entry and the ranges and names of its routines are those that the
image and the descriptor tell, as far as the session has come. The passes over the routines leave
these alone.
-/

namespace FirmwareLift

namespace Routine

/-- The range and the name of a routine. -/
def bounds (f : Routine) : Bounds :=
  ⟨f.start, f.stop, f.name⟩

variable (f : Routine)

theorem bounds_markTask (created : CreatedTasks) : (f.markTask created).bounds = f.bounds := by
  obtain ⟨isTask, taskPriority, heq⟩ := f.markTask_eq created
  rw [heq]
  rfl

theorem bounds_markHandler (registered : List Address) :
    (f.markHandler registered).bounds = f.bounds := by
  obtain ⟨isInterruptHandler, heq⟩ := f.markHandler_eq registered
  rw [heq]
  rfl

end Routine

theorem map_bounds_toRoutine (found : List Bounds) :
    (found.map Bounds.toRoutine).map Routine.bounds = found := by
  rw [List.map_map]
  exact List.map_id found

namespace Session

/-- What is known of the entry and the routines at the stage of a session. -/
structure Located (s : Session) : Prop where
  entry : Stage.entryAnalyzed.order ≤ s.stage.order → s.entry = s.resolvedEntry
  bounds : Stage.functionsDiscovered.order ≤ s.stage.order →
    s.routines.map Routine.bounds = s.descriptor.discover s.image s.entry

variable {s : Session}

theorem located_of_early (h : s.stage.order < Stage.entryAnalyzed.order) : s.Located where
  entry hentry := absurd hentry (Nat.not_le.2 h)
  bounds hbounds := absurd hbounds (Nat.not_le.2 (Nat.lt_trans h (by decide)))

theorem Located.register (h : s.Located) (idiom : Idiom) : (s.register idiom).Located :=
  ⟨h.entry, h.bounds⟩

theorem Located.entered (h : s.Located) : s.entered.Located := by
  refine ⟨fun _ => rfl, fun hstage => ?_⟩
  have hdiscovered : Stage.functionsDiscovered.order ≤ s.stage.order := by
    revert hstage
    simp only [Session.entered]
    split
    · simp [Stage.order]
    · exact id
  have hentry : s.entry = s.resolvedEntry := h.entry (Nat.le_trans (by decide) hdiscovered)
  show s.routines.map Routine.bounds = s.descriptor.discover s.image s.resolvedEntry
  rw [← hentry]
  exact h.bounds hdiscovered

theorem Located.discover (h : s.Located) : (s.perform .discover).Located :=
  after_whenAt h fun hstage => ⟨fun _ => h.entry hstage, fun _ => map_bounds_toRoutine _⟩

/-- A pass that leaves the ranges and names of routines alone keeps a session located. -/
theorem Located.map (h : s.Located) (hstage : Stage.functionsDiscovered.order ≤ s.stage.order)
    (pass : Routine → Routine) (hpass : ∀ f, (pass f).bounds = f.bounds) (stage : Stage) :
    Located { s with routines := s.routines.map pass, stage } where
  entry _ := h.entry (Nat.le_trans (by decide) hstage)
  bounds _ := by
    have hcomp : Routine.bounds ∘ pass = Routine.bounds := funext hpass
    rw [List.map_map, hcomp]
    exact h.bounds hstage

theorem Located.analyze (h : s.Located) : (s.perform .analyze).Located :=
  after_whenAt h fun hstage => h.map hstage s.analyzeRoutine (fun _ => rfl) _

theorem Located.detectApis (h : s.Located) : (s.perform .detectApis).Located := by
  refine after_whenAt h fun hstage => ?_
  have hdiscovered : Stage.functionsDiscovered.order ≤ s.stage.order :=
    Nat.le_trans (by decide) hstage
  have hannotated := h.map hdiscovered s.descriptor.annotateRoutine (fun _ => rfl) s.stage
  exact hannotated.map hdiscovered Routine.inferSignature (fun _ => rfl) s.stage

theorem Located.detectTasks (h : s.Located) : (s.perform .detectTasks).Located :=
  after_whenAt h fun hstage =>
    h.map (Nat.le_trans (by decide) hstage) _ (fun f => f.bounds_markTask _) _

theorem Located.detectHandlers (h : s.Located) : (s.perform .detectHandlers).Located :=
  after_whenAt h fun hstage =>
    h.map (Nat.le_trans (by decide) hstage) _ (fun f => f.bounds_markHandler _) _

theorem located_discovered (s : Session) : s.discovered.Located :=
  ⟨fun _ => rfl, fun _ => map_bounds_toRoutine _⟩

theorem Located.decompile (h : s.Located) : (s.perform .decompile).Located := by
  by_cases hstage : s.stage = .unloaded
  · rw [perform_decompile_of_unloaded hstage]
    exact h
  · rw [perform_decompile hstage]
    have hanalyzed : s.analyzed.Located :=
      s.located_discovered.map (Nat.le_refl _) s.analyzeRoutine (fun _ => rfl) _
    have hdetected : s.detected.Located := hanalyzed.detectApis.detectTasks.detectHandlers
    have hlate : Stage.functionsDiscovered.order ≤ s.detected.stage.order := by
      rw [stage_detected]
      decide
    exact hdetected.map hlate (fun f => { f with pseudocode := f.definition s.detected.idioms })
      (fun _ => rfl) .decompiled

theorem Located.perform (h : s.Located) (operation : Operation) :
    (s.perform operation).Located := by
  cases operation with
  | load bytes => exact located_of_early (by decide : Stage.loaded.order < _)
  | register idiom => exact h.register idiom
  | analyzeEntry => exact after_whenAt h fun _ => h.entered
  | discover => exact h.discover
  | analyze => exact h.analyze
  | detectApis => exact h.detectApis
  | detectTasks => exact h.detectTasks
  | detectHandlers => exact h.detectHandlers
  | decompile => exact h.decompile

theorem Located.run (h : s.Located) (operations : List Operation) : (s.run operations).Located := by
  induction operations generalizing s with
  | nil => exact h
  | cons operation operations ih => exact ih (h.perform operation)

theorem located_run (d : Descriptor) (operations : List Operation) :
    ((new d).run operations).Located :=
  (located_of_early (by decide : Stage.unloaded.order < _) : (new d).Located).run operations

end Session

end FirmwareLift
