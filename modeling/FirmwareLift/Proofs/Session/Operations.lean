import FirmwareLift.Session

/-!
# Operations on sessions

A session is used by one operation after the other, in any order. An operation that fails leaves the
session as it was. A run of all stages is taken apart into the sessions that it passes through.
-/

namespace FirmwareLift.Session

inductive Operation where
  | load (bytes : Array UInt8)
  | register (idiom : Idiom)
  | analyzeEntry
  | discover
  | analyze
  | detectApis
  | detectTasks
  | detectHandlers
  | decompile

/-- Whether an operation runs stages; all do but those that load and register. -/
def Operation.isStage : Operation → Bool
  | .load _ => false
  | .register _ => false
  | _ => true

def after {α : Type} (s : Session) : Except StageError (α × Session) → Session
  | .ok (_, next) => next
  | .error _ => s

def perform (s : Session) : Operation → Session
  | .load bytes => s.load bytes
  | .register idiom => s.register idiom
  | .analyzeEntry => s.after s.analyzeEntry
  | .discover => s.after s.discover
  | .analyze => s.after s.analyze
  | .detectApis => s.after s.detectApis
  | .detectTasks => s.after s.detectTasks
  | .detectHandlers => s.after s.detectHandlers
  | .decompile => s.decompile.2.toOption.getD s

def run (s : Session) (operations : List Operation) : Session :=
  operations.foldl perform s

@[simp] theorem run_nil (s : Session) : s.run [] = s := rfl

@[simp] theorem run_cons (s : Session) (operation : Operation) (operations : List Operation) :
    s.run (operation :: operations) = (s.perform operation).run operations := rfl

/-! ## Stages -/

section

variable {α : Type} {s : Session} {needed : Stage} {outcome : α × Session}

theorem whenAt_eq_ok (h : needed.order ≤ s.stage.order) : s.whenAt needed outcome = .ok outcome :=
  if_neg (Nat.not_lt.2 h)

theorem whenAt_eq_error (h : s.stage.order < needed.order) :
    s.whenAt needed outcome = .error ⟨needed, s.stage⟩ :=
  if_pos h

/-- What holds of the session, and of the outcome where the stage can run, holds afterwards. -/
theorem after_whenAt {P : Session → Prop} (hs : P s)
    (h : needed.order ≤ s.stage.order → P outcome.2) : P (s.after (s.whenAt needed outcome)) := by
  by_cases hstage : s.stage.order < needed.order
  · rw [whenAt_eq_error hstage]
    exact hs
  · rw [whenAt_eq_ok (Nat.not_lt.1 hstage)]
    exact h (Nat.not_lt.1 hstage)

end

/-!
## A run of all stages

What a session is after the first stage, the first two, the first three, and all but the last.
-/

variable (s : Session)

def entered : Session :=
  { s with
    entry := s.resolvedEntry
    stage := if s.stage = .loaded then .entryAnalyzed else s.stage }

def discovered : Session :=
  { s with
    entry := s.resolvedEntry
    routines := (s.descriptor.discover s.image s.resolvedEntry).map Bounds.toRoutine
    stage := .functionsDiscovered }

def analyzed : Session :=
  { s.discovered with
    routines := s.discovered.routines.map s.analyzeRoutine
    stage := .functionsAnalyzed }

def detected : Session :=
  s.analyzed.run [.detectApis, .detectTasks, .detectHandlers]

theorem stage_detected : s.detected.stage = .functionsAnalyzed := rfl

variable {s}

theorem analyzeEntry_eq_ok (h : s.stage ≠ .unloaded) :
    s.analyzeEntry = .ok (s.resolvedEntry, s.entered) := by
  apply whenAt_eq_ok
  cases hstage : s.stage <;> simp_all [Stage.order]

theorem discover_entered (h : s.stage ≠ .unloaded) :
    s.entered.discover = .ok (s.discovered.routines.length, s.discovered) := by
  apply whenAt_eq_ok (s := s.entered)
  simp only [entered]
  cases hstage : s.stage <;> simp_all [Stage.order]

theorem analyze_discovered :
    s.discovered.analyze = .ok (analysisProgress s.discovered.routines, s.analyzed) :=
  whenAt_eq_ok (Nat.le_refl _)

theorem runStages_eq_ok (h : s.stage ≠ .unloaded) :
    s.runStages = .ok (analysisProgress s.discovered.routines, s.detected) := by
  simp only [runStages, analyzeEntry_eq_ok h, discover_entered h, analyze_discovered, bind,
    Except.bind]
  rfl

/-- Without an image, no stage runs; with one, all of them do. -/
theorem decompile_eq_error (h : s.stage = .unloaded) :
    s.decompile = ([started], .error ⟨.loaded, .unloaded⟩) := by
  have herror : s.analyzeEntry = .error ⟨.loaded, .unloaded⟩ := by
    rw [← h]
    exact whenAt_eq_error (by rw [h]; decide)
  simp only [decompile, runStages, herror, bind, Except.bind]

theorem decompile_eq_ok (h : s.stage ≠ .unloaded) :
    s.decompile =
      (overallProgress (analysisProgress s.discovered.routines),
        .ok s.detected.writePseudocode) := by
  rw [decompile, runStages_eq_ok h]

theorem perform_decompile_of_unloaded (h : s.stage = .unloaded) : s.perform .decompile = s := by
  rw [perform, decompile_eq_error h]
  rfl

theorem perform_decompile (h : s.stage ≠ .unloaded) :
    s.perform .decompile = s.detected.writePseudocode := by
  rw [perform, decompile_eq_ok h]
  rfl

end FirmwareLift.Session
