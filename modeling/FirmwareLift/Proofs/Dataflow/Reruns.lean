import FirmwareLift.Proofs.Dataflow.Reaching
import Mathlib.Data.List.Induction

/-!
# Repeated analyses

What a sequence of analyses leaves behind for a graph. The first run of an analysis solves its
problem, so that later runs find nothing to change, and no analysis looks at what another one found.
-/

namespace FirmwareLift

namespace Dataflow

inductive Analysis where
  | reaching
  | live
  | types
deriving DecidableEq

/-- The number of passes of a run that finds nothing to change. -/
def Analysis.idlePasses? : Analysis → Option Nat
  | reaching | live => some 1
  | types => none

/-- The two states hold the same result of the analysis. -/
def Analysis.SameResult : Analysis → Dataflow → Dataflow → Prop
  | reaching, d, e => d.reaching = e.reaching
  | live, d, e => d.live = e.live
  | types, d, e => d.types = e.types

section

variable (g : FlowGraph)

/-- Runs one analysis; types are inferred without passes that would be counted. -/
def perform (d : Dataflow) : Analysis → Option Nat × Dataflow
  | .reaching => ((d.runReaching g).1, (d.runReaching g).2)
  | .live => ((d.runLive g).1, (d.runLive g).2)
  | .types => (none, d.runTypes g)

/-- The state behind a sequence of runs. -/
def performAll (runs : List Analysis) : Dataflow :=
  runs.foldl (fun d a => (perform g d a).2) (start g)

/-- Results that are there for the analyses that have run, whatever the order of the runs. -/
def resultsOf (runs : List Analysis) : Dataflow where
  reaching :=
    if .reaching ∈ runs then (g.solveReaching (.ofCount g.count)).2 else .ofCount g.count
  live := if .live ∈ runs then (g.solveLive (.ofCount g.count)).2 else .ofCount g.count
  types := if .types ∈ runs then g.inferTypes else .empty

/--
A repeated run is idle, a result is that of the analysis alone, and a first run makes as many passes
as it would on its own.
-/
structure Repeatable : Prop where
  repeated : ∀ runs : List Analysis, ∀ a ∈ runs,
    perform g (performAll g runs) a = (a.idlePasses?, performAll g runs)
  result : ∀ runs : List Analysis, ∀ a ∈ runs, a.SameResult (performAll g runs) (performAll g [a])
  first : ∀ (runs : List Analysis) a, a ∉ runs →
    (perform g (performAll g runs) a).1 = (perform g (start g) a).1

end

variable {g : FlowGraph} {listing : List Instruction} {analysed : FlowGraph}

theorem solveReaching_solved (hg : g.Indexed) :
    g.solveReaching (g.solveReaching (.ofCount g.count)).2 =
      (1, (g.solveReaching (.ofCount g.count)).2) :=
  settle_of_fixed (g.reachingProblem hg).settles_solution.fixed

theorem solveLive_solved (hg : g.Indexed) :
    g.solveLive (g.solveLive (.ofCount g.count)).2 = (1, (g.solveLive (.ofCount g.count)).2) :=
  settle_of_fixed (g.liveProblem hg).settles_solution.fixed

theorem perform_resultsOf (hg : g.Indexed) {runs : List Analysis} {a : Analysis} (ha : a ∈ runs) :
    perform g (resultsOf g runs) a = (a.idlePasses?, resultsOf g runs) := by
  cases a with
  | reaching => simp only [perform, runReaching, resultsOf, if_pos ha, solveReaching_solved hg]; rfl
  | live => simp only [perform, runLive, resultsOf, if_pos ha, solveLive_solved hg]; rfl
  | types => simp only [perform, runTypes, resultsOf, if_pos ha]; rfl

theorem perform_resultsOf_snd (hg : g.Indexed) (runs : List Analysis) (a : Analysis) :
    (perform g (resultsOf g runs) a).2 = resultsOf g (runs ++ [a]) := by
  by_cases ha : a ∈ runs
  · have hmem : ∀ other, other ∈ runs ++ [a] ↔ other ∈ runs := by grind
    rw [perform_resultsOf hg ha]
    simp only [resultsOf, hmem]
  · cases a <;> simp [perform, runReaching, runLive, runTypes, resultsOf, ha]

theorem performAll_eq (hg : g.Indexed) (runs : List Analysis) :
    performAll g runs = resultsOf g runs := by
  induction runs using List.reverseRecOn with
  | nil => rfl
  | append_singleton runs a ih =>
      rw [performAll, List.foldl_append, List.foldl_cons, List.foldl_nil, ← performAll, ih,
        perform_resultsOf_snd hg]

/-- The analyses of a graph may be repeated and mixed in any order. -/
theorem repeatable_of_edited (h : FlowGraph.Edited listing analysed g) : Repeatable g where
  repeated runs a ha := by
    rw [performAll_eq h.extends.indexed, perform_resultsOf h.extends.indexed ha]
  result runs a ha := by
    rw [performAll_eq h.extends.indexed, performAll_eq h.extends.indexed]
    cases a <;> simp [Analysis.SameResult, resultsOf, ha]
  first runs a ha := by
    rw [performAll_eq h.extends.indexed]
    cases a <;> simp [perform, runReaching, runLive, resultsOf, ha, start]

open FlowGraph (Edited merging merged)

theorem merged_repeatable :
    Edited merging merged merged ∧ Repeatable merged ∧
      (perform merged (performAll merged [.live, .types]) .reaching).1 = some 4 ∧
      (perform merged (performAll merged [.reaching, .live]) .reaching).1 = some 1 := by
  have hedited : Edited merging merged merged :=
    @Edited.addEdge _ _ _ 2 0 (.build merging .empty) (by decide +kernel) (by decide +kernel)
  exact ⟨hedited, repeatable_of_edited hedited, by decide +kernel, by decide +kernel⟩

end Dataflow

end FirmwareLift
