import FirmwareLift.Proofs.Session.Coherence
import FirmwareLift.Proofs.Session.Located

/-!
# Analyzing again

The analysis of the routines derives graphs and signatures from the image alone. What the passes
behind it have written, the marks of tasks and handlers and the pseudocode, it keeps. So it comes to
what a new discovery and analysis come to exactly where nothing has been marked or written.
-/

namespace FirmwareLift

namespace Routine

/-- The routine with the marks and the pseudocode of another one. -/
def markedAs (f g : Routine) : Routine :=
  { f with
    pseudocode := g.pseudocode
    isInterruptHandler := g.isInterruptHandler
    isTask := g.isTask
    taskPriority := g.taskPriority }

/-- No pass behind the analysis has written anything into the routine. -/
structure Unmarked (f : Routine) : Prop where
  pseudocode : f.pseudocode = ""
  handler : f.isInterruptHandler = false
  task : f.isTask = false
  priority : f.taskPriority = none

theorem markedAs_eq_self_iff {f g : Routine} (hf : f.Unmarked) :
    f.markedAs g = f ↔ g.Unmarked := by
  obtain ⟨hpseudocode, hhandler, htask, hpriority⟩ := hf
  cases f
  subst hpseudocode hhandler htask hpriority
  simp only [markedAs, Routine.mk.injEq, true_and]
  exact ⟨fun ⟨hpseudocode, hhandler, htask, hpriority⟩ =>
    ⟨hpseudocode, hhandler, htask, hpriority⟩,
    fun ⟨hpseudocode, hhandler, htask, hpriority⟩ =>
      ⟨hpseudocode, hhandler, htask, hpriority⟩⟩

variable (image : Image) (symbols : SymbolTable) (heuristic : LoopHeuristic)

theorem unmarked_analyze_toRoutine (bounds : Bounds) :
    (bounds.toRoutine.analyze image symbols heuristic).Unmarked :=
  ⟨rfl, rfl, rfl, rfl⟩

/-- Of what a routine holds, its analysis uses the range; it keeps the name and the marks. -/
theorem analyze_eq_markedAs (f : Routine) :
    f.analyze image symbols heuristic =
      (f.bounds.toRoutine.analyze image symbols heuristic).markedAs f := rfl

end Routine

namespace Session

variable {s : Session}

/-- The session behind an analysis of the present routines. -/
def reanalyzed (s : Session) : Session :=
  { s with routines := s.routines.map s.analyzeRoutine, stage := .functionsAnalyzed }

/-- The session behind a discovery and an analysis. -/
def renewed (s : Session) : Session :=
  { s with routines := s.discoveredRoutines, stage := .functionsDiscovered }.reanalyzed

theorem discoveredRoutines_eq (h : s.Located)
    (hstage : Stage.functionsDiscovered.order ≤ s.stage.order) :
    s.discoveredRoutines = s.routines.map fun f => f.bounds.toRoutine := by
  rw [discoveredRoutines, ← h.bounds hstage, List.map_map]
  rfl

theorem analyze_eq_ok (hstage : Stage.functionsDiscovered.order ≤ s.stage.order) :
    s.analyze = .ok (analysisProgress s.routines, s.reanalyzed) :=
  whenAt_eq_ok hstage

theorem discover_analyze_eq_ok (hstage : Stage.functionsDiscovered.order ≤ s.stage.order) :
    (do
      let (_, s) ← s.discover
      s.analyze) = .ok (analysisProgress s.discoveredRoutines, s.renewed) := by
  let found : Session :=
    { s with routines := s.discoveredRoutines, stage := .functionsDiscovered }
  have hdiscover : s.discover = .ok (s.discoveredRoutines.length, found) :=
    whenAt_eq_ok (Nat.le_trans (by decide) hstage)
  have hanalyze : found.analyze = .ok (analysisProgress found.routines, found.reanalyzed) :=
    analyze_eq_ok (Nat.le_refl _)
  rw [hdiscover]
  exact hanalyze

theorem reanalyzed_idem (s : Session) : s.reanalyzed.reanalyzed = s.reanalyzed := by
  simp only [reanalyzed, List.map_map]
  rfl

theorem routines_renewed (h : s.Located)
    (hstage : Stage.functionsDiscovered.order ≤ s.stage.order) :
    s.renewed.routines = s.routines.map fun f => s.analyzeRoutine f.bounds.toRoutine := by
  show s.discoveredRoutines.map s.analyzeRoutine = _
  rw [discoveredRoutines_eq h hstage, List.map_map]
  rfl

theorem routines_reanalyzed (h : s.Located)
    (hstage : Stage.functionsDiscovered.order ≤ s.stage.order) :
    s.reanalyzed.routines = List.zipWith Routine.markedAs s.renewed.routines s.routines := by
  rw [routines_renewed h hstage, List.zipWith_map_left, List.zipWith_self]
  rfl

theorem reanalyzed_eq_renewed_iff (h : s.Located)
    (hstage : Stage.functionsDiscovered.order ≤ s.stage.order) :
    s.reanalyzed.routines = s.renewed.routines ↔ ∀ f ∈ s.routines, f.Unmarked := by
  have hreanalyzed : s.reanalyzed.routines =
      s.routines.map fun f => (s.analyzeRoutine f.bounds.toRoutine).markedAs f :=
    List.map_congr_left fun f _ => f.analyze_eq_markedAs _ _ _
  rw [hreanalyzed, routines_renewed h hstage, List.map_inj_left]
  exact forall₂_congr fun f _ =>
    Routine.markedAs_eq_self_iff (Routine.unmarked_analyze_toRoutine _ _ _ f.bounds)

/-- What a session comes to when its routines are analyzed again, and when they are found anew. -/
structure Renews (s again fresh : Session) : Prop where
  length_eq : fresh.routines.length = s.routines.length
  unmarked : ∀ f ∈ fresh.routines, f.Unmarked
  again_eq : again =
    { fresh with routines := List.zipWith Routine.markedAs fresh.routines s.routines }
  again_eq_iff : again = fresh ↔ ∀ f ∈ s.routines, f.Unmarked
  idem : again.perform .analyze = again

theorem renews (h : s.Located) (hstage : Stage.functionsDiscovered.order ≤ s.stage.order) :
    s.Renews s.reanalyzed s.renewed where
  length_eq := by rw [routines_renewed h hstage, List.length_map]
  unmarked := by
    rw [routines_renewed h hstage]
    exact List.forall_mem_map.2 fun f _ => Routine.unmarked_analyze_toRoutine _ _ _ f.bounds
  again_eq := by
    rw [← routines_reanalyzed h hstage]
    rfl
  again_eq_iff := by
    rw [← reanalyzed_eq_renewed_iff h hstage]
    refine ⟨congrArg routines, fun hroutines => ?_⟩
    exact congrArg (fun routines => { s with routines, stage := .functionsAnalyzed }) hroutines
  idem := by
    rw [perform, analyze_eq_ok (by decide : _ ≤ Stage.functionsAnalyzed.order)]
    exact s.reanalyzed_idem

/--
To analyze the routines again gives those that a new discovery and analysis find, except that each
of them keeps its marks and its pseudocode, of which the new ones have none. So the two agree
exactly if nothing was marked or written before.
-/
theorem reanalysis_keeps_marks (d : Descriptor) (operations : List Operation)
    (hstage : Stage.functionsDiscovered.order ≤ ((new d).run operations).stage.order) :
    ∃ reports again renewals fresh,
      ((new d).run operations).analyze = .ok (reports, again) ∧
      (do
        let (_, s) ← ((new d).run operations).discover
        s.analyze) = .ok (renewals, fresh) ∧
      ((new d).run operations).Renews again fresh :=
  ⟨_, _, _, _, analyze_eq_ok hstage, discover_analyze_eq_ok hstage,
    renews (located_run d operations) hstage⟩

/-- A return from an interrupt, with all stages run. -/
def interruptReturn : List Operation :=
  [.load #[0x2d, 0x00, 0x00, 0x00], .decompile]

theorem reanalysis_interruptReturn :
    Stage.functionsDiscovered.order ≤ ((new .esp32).run interruptReturn).stage.order ∧
      ∃ reports again renewals fresh,
        ((new .esp32).run interruptReturn).analyze = .ok (reports, again) ∧
        (do
          let (_, s) ← ((new .esp32).run interruptReturn).discover
          s.analyze) = .ok (renewals, fresh) ∧
        ((new .esp32).run interruptReturn).Renews again fresh := by
  have hstage : Stage.functionsDiscovered.order ≤
      ((new .esp32).run interruptReturn).stage.order := by
    rw [show ((new .esp32).run interruptReturn).stage = .decompiled from rfl]
    decide
  exact ⟨hstage, reanalysis_keeps_marks .esp32 interruptReturn hstage⟩

/-- The pseudocode of the first run is still there, though the routines are analyzed anew. -/
theorem reanalyzed_ne_renewed :
    ((new .esp32).run (interruptReturn ++ [.analyze])).routines ≠
      ((new .esp32).run (interruptReturn ++ [.discover, .analyze])).routines := by
  have hcoherent := (coherent_new .esp32).run interruptReturn
  have hlocated := located_run .esp32 interruptReturn
  have hcount : ((new .esp32).run interruptReturn).routines.length = 1 := by decide +kernel
  have hdecompiled : ((new .esp32).run interruptReturn).stage = .decompiled := rfl
  intro h
  obtain ⟨f, hf⟩ := List.length_eq_one_iff.1 hcount
  have hmem : f ∈ ((new .esp32).run interruptReturn).routines := by rw [hf]; simp
  have hunmarked := (reanalyzed_eq_renewed_iff hlocated (by rw [hdecompiled]; decide)).1 h f hmem
  exact hcoherent.written hdecompiled f hmem hunmarked.pseudocode

end Session

end FirmwareLift
