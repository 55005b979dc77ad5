import FirmwareLift.Proofs.Session.Operations

/-!
# Gates

An operation fails exactly where the session has not come to the stage that it needs, and where it
succeeds, the stage behind it is known beforehand. So the stages alone tell whether operations can
follow each other. A run of all stages works on the session itself, and a failure half way would
leave it between two stages; but behind the first stage none can fail.
-/

namespace FirmwareLift.Session

/-- The stage that the session must have come to. -/
def Operation.needed : Operation → Stage
  | .load _ | .register _ => .unloaded
  | .analyzeEntry | .decompile => .loaded
  | .discover => .entryAnalyzed
  | .analyze => .functionsDiscovered
  | .detectApis | .detectTasks | .detectHandlers => .functionsAnalyzed

/-- The stage behind an operation on a session that has come to `current`. -/
def Operation.reached (current : Stage) : Operation → Stage
  | .load _ => .loaded
  | .analyzeEntry => if current.order < Stage.entryAnalyzed.order then .entryAnalyzed else current
  | .discover => .functionsDiscovered
  | .analyze => .functionsAnalyzed
  | .decompile => .decompiled
  | .register _ | .detectApis | .detectTasks | .detectHandlers => current

/-- The session that an operation makes of `s`, or its failure. -/
def attempt (s : Session) : Operation → Except StageError Session
  | .load bytes => .ok (s.load bytes)
  | .register idiom => .ok (s.register idiom)
  | .analyzeEntry => s.analyzeEntry.map (·.2)
  | .discover => s.discover.map (·.2)
  | .analyze => s.analyze.map (·.2)
  | .detectApis => s.detectApis.map (·.2)
  | .detectTasks => s.detectTasks.map (·.2)
  | .detectHandlers => s.detectHandlers.map (·.2)
  | .decompile => s.decompile.2

/--
Performs operations on the session itself, up to the first that fails: the session as it is then,
and the failure.
-/
def runInPlace (s : Session) : List Operation → Session × Option StageError
  | [] => (s, none)
  | operation :: rest =>
    match s.attempt operation with
    | .ok next => next.runInPlace rest
    | .error error => (s, some error)

/-- The stages that a run of all of them performs, in order; it then writes the pseudocode. -/
def stages : List Operation :=
  [.analyzeEntry, .discover, .analyze, .detectApis, .detectTasks, .detectHandlers]

/-- Whether operations find the stages that they need, one after the other. -/
def Admitted (current : Stage) : List Operation → Prop
  | [] => True
  | operation :: rest =>
    operation.needed.order ≤ current.order ∧ Admitted (operation.reached current) rest

/-- The gates of a session, and what stands behind them. -/
structure Gated (s : Session) : Prop where
  fails_iff : ∀ operation error, s.attempt operation = .error error ↔
    s.stage.order < operation.needed.order ∧ error = ⟨operation.needed, s.stage⟩
  unchanged : ∀ operation error, s.attempt operation = .error error → s.perform operation = s
  reached : ∀ operation next, s.attempt operation = .ok next →
    s.perform operation = next ∧ next.stage = operation.reached s.stage
  decompile_eq : s.decompile.2 =
    match s.runInPlace stages with
    | (next, none) => .ok next.writePseudocode
    | (_, some error) => .error error
  atomic : ∀ error, (s.runInPlace stages).2 = some error → (s.runInPlace stages).1 = s
  unbroken : ∀ front rest, front ++ rest = stages → front ≠ [] → (s.runInPlace front).2 = none →
    ((s.runInPlace front).1.runInPlace rest).2 = none

variable (s : Session)

/-! ## One operation -/

theorem perform_eq (operation : Operation) :
    s.perform operation = (s.attempt operation).toOption.getD s := by
  have hafter : ∀ {α : Type} (outcome : Except StageError (α × Session)),
      s.after outcome = (outcome.map (·.2)).toOption.getD s := by
    intro α outcome
    cases outcome <;> rfl
  cases operation with
  | load bytes => rfl
  | register idiom => rfl
  | decompile => rfl
  | _ => exact hafter _

/-- A stage runs behind its gate, or fails with the stage that it needs and the present one. -/
theorem map_whenAt {α : Type} (needed : Stage) (outcome : α × Session) :
    (s.whenAt needed outcome).map (·.2) =
      if s.stage.order < needed.order then .error ⟨needed, s.stage⟩ else .ok outcome.2 := by
  rw [whenAt, apply_ite (Except.map _)]
  rfl

variable {s} {operation : Operation}

theorem attempt_of_lt (h : s.stage.order < operation.needed.order) :
    s.attempt operation = .error ⟨operation.needed, s.stage⟩ := by
  cases operation with
  | load bytes => cases h
  | register idiom => cases h
  | decompile =>
      have hstage : s.stage = .unloaded := by
        cases hs : s.stage <;> simp_all [Operation.needed, Stage.order]
      rw [attempt, decompile_eq_error hstage, hstage]
      rfl
  | _ => exact (map_whenAt s _ _).trans (if_pos h)

theorem exists_attempt_of_le (h : operation.needed.order ≤ s.stage.order) :
    ∃ next, s.attempt operation = .ok next ∧ next.stage = operation.reached s.stage := by
  have hgate : ∀ {α : Type} (outcome : α × Session),
      (s.whenAt operation.needed outcome).map (·.2) = .ok outcome.2 := by
    intro α outcome
    rw [map_whenAt, if_neg (Nat.not_lt.2 h)]
  cases operation with
  | load bytes => exact ⟨_, rfl, rfl⟩
  | register idiom => exact ⟨_, rfl, rfl⟩
  | analyzeEntry =>
      refine ⟨_, hgate _, ?_⟩
      cases hs : s.stage <;> simp_all [Operation.needed, Operation.reached, Stage.order]
  | discover => exact ⟨_, hgate _, rfl⟩
  | analyze => exact ⟨_, hgate _, rfl⟩
  | detectApis => exact ⟨_, hgate _, rfl⟩
  | detectTasks => exact ⟨_, hgate _, rfl⟩
  | detectHandlers => exact ⟨_, hgate _, rfl⟩
  | decompile =>
      have hstage : s.stage ≠ .unloaded := by
        intro hs
        rw [hs] at h
        exact absurd h (by decide)
      exact ⟨_, congrArg Prod.snd (decompile_eq_ok hstage), rfl⟩

theorem attempt_eq_error_iff {error : StageError} :
    s.attempt operation = .error error ↔
      s.stage.order < operation.needed.order ∧ error = ⟨operation.needed, s.stage⟩ := by
  by_cases h : s.stage.order < operation.needed.order
  · rw [attempt_of_lt h, Except.error.injEq, eq_comm]
    exact (and_iff_right h).symm
  · obtain ⟨next, hnext, -⟩ := exists_attempt_of_le (Nat.not_lt.1 h)
    rw [hnext]
    exact iff_of_false nofun fun ⟨hlt, _⟩ => h hlt

theorem stage_of_attempt {next : Session} (h : s.attempt operation = .ok next) :
    next.stage = operation.reached s.stage := by
  by_cases hlt : s.stage.order < operation.needed.order
  · rw [attempt_of_lt hlt] at h
    cases h
  · obtain ⟨next', hnext', hstage⟩ := exists_attempt_of_le (Nat.not_lt.1 hlt)
    rw [hnext', Except.ok.injEq] at h
    rw [← h]
    exact hstage

/-! ## Several operations -/

theorem runInPlace_append (s : Session) (front rest : List Operation) :
    s.runInPlace (front ++ rest) =
      match s.runInPlace front with
      | (next, none) => next.runInPlace rest
      | (left, some error) => (left, some error) := by
  induction front generalizing s with
  | nil => rfl
  | cons operation front ih =>
      simp only [List.cons_append, runInPlace]
      cases s.attempt operation with
      | ok next => exact ih next
      | error error => rfl

/-- The stages alone decide whether operations can follow each other. -/
theorem runInPlace_eq_none_iff {operations : List Operation} :
    (s.runInPlace operations).2 = none ↔ Admitted s.stage operations := by
  induction operations generalizing s with
  | nil => exact iff_of_true rfl trivial
  | cons operation rest ih =>
      rw [runInPlace, Admitted]
      by_cases h : operation.needed.order ≤ s.stage.order
      · obtain ⟨next, hnext, hstage⟩ := exists_attempt_of_le h
        rw [hnext, ← hstage, and_iff_right h]
        exact ih
      · rw [attempt_of_lt (Nat.not_le.1 h)]
        exact iff_of_false nofun fun ⟨hle, _⟩ => h hle

theorem runInPlace_eq_run {operations : List Operation} (h : Admitted s.stage operations) :
    s.runInPlace operations = (s.run operations, none) := by
  induction operations generalizing s with
  | nil => rfl
  | cons operation rest ih =>
      obtain ⟨next, hnext, hstage⟩ := exists_attempt_of_le h.1
      have hperform : s.perform operation = next := by
        rw [perform_eq, hnext]
        rfl
      rw [runInPlace, run_cons, hnext, hperform]
      exact ih (hstage ▸ h.2)

/-! ## A run of all stages -/

theorem admitted_stages (h : s.stage ≠ .unloaded) : Admitted s.stage stages := by
  cases hs : s.stage with
  | unloaded => exact absurd hs h
  | _ => simp [stages, Admitted, Operation.needed, Operation.reached, Stage.order]

theorem runInPlace_stages (h : s.stage ≠ .unloaded) : s.runInPlace stages = (s.detected, none) := by
  rw [runInPlace_eq_run (admitted_stages h), stages, run_cons, run_cons, run_cons]
  simp only [perform, analyzeEntry_eq_ok h, after, discover_entered h, analyze_discovered]
  rfl

theorem runInPlace_stages_of_unloaded (h : s.stage = .unloaded) :
    s.runInPlace stages = (s, some ⟨.loaded, .unloaded⟩) := by
  have hentry : s.attempt .analyzeEntry = .error ⟨.loaded, .unloaded⟩ := by
    rw [attempt_of_lt (by rw [h]; decide), h]
    rfl
  rw [stages, runInPlace, hentry]

/--
An operation fails exactly on a session that has not come to the stage it needs, and then leaves the
session as it was. Behind the gate it succeeds, and the stage that it reaches is fixed. A run of all
stages is the run of one after the other on the session itself; it fails at the first of them or not
at all, so that no failure leaves a session half way.
-/
theorem gated (s : Session) : s.Gated where
  fails_iff _ _ := attempt_eq_error_iff
  unchanged operation error h := by
    rw [perform_eq, h]
    rfl
  reached operation next h := by
    refine ⟨?_, stage_of_attempt h⟩
    rw [perform_eq, h]
    rfl
  decompile_eq := by
    by_cases h : s.stage = .unloaded
    · rw [decompile_eq_error h, runInPlace_stages_of_unloaded h]
    · rw [decompile_eq_ok h, runInPlace_stages h]
  atomic error herror := by
    by_cases h : s.stage = .unloaded
    · rw [runInPlace_stages_of_unloaded h]
    · rw [runInPlace_stages h] at herror
      cases herror
  unbroken front rest heq hne hfront := by
    -- The first stage has passed, so the session has an image, and all stages pass.
    have hloaded : s.stage ≠ .unloaded := by
      intro h
      cases front with
      | nil => exact hne rfl
      | cons operation front =>
          obtain ⟨rfl, -⟩ := List.cons.inj heq
          rw [runInPlace_eq_none_iff, Admitted, h] at hfront
          exact absurd hfront.1 (by decide)
    have hall := congrArg Prod.snd (runInPlace_stages hloaded)
    rw [← heq, runInPlace_append] at hall
    cases hrun : s.runInPlace front with
    | mk next failure =>
        rw [hrun] at hfront hall
        obtain rfl : failure = none := hfront
        exact hall

end FirmwareLift.Session
