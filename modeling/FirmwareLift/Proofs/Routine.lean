import FirmwareLift.Detection
import FirmwareLift.Proofs.Dataflow.Relabel
import FirmwareLift.Proofs.FlowGraph.Blocks

/-!
# Analyzed routines

What holds of a routine once it is analyzed: its graph holds the instructions of its range, the
facts in the graph are those that another run of the analyses would find, and so is its signature.
The detection passes keep all of this.
-/

namespace FirmwareLift

namespace FlowGraph

/-- The facts in the graph are those that another run of the analyses finds. -/
structure Solved (heuristic : LoopHeuristic) (g : FlowGraph) : Prop where
  dominators : g.dominators = g.computeDominators.2.dominators
  loops : g.loops = (g.detectLoops heuristic).loops
  reaching : g.reaching = g.analyze.1.reaching
  live : g.live = g.analyze.1.live

variable {heuristic : LoopHeuristic} {g : FlowGraph}

theorem ensureDominators_eq (h : g.dominators = g.computeDominators.2.dominators) :
    g.ensureDominators = g := by
  have hself : g.computeDominators.2 = g := by
    calc g.computeDominators.2
        = { g with dominators := g.computeDominators.2.dominators } := rfl
      _ = { g with dominators := g.dominators } := by rw [← h]
  unfold ensureDominators
  split
  · rfl
  · exact hself

theorem detectLoops_eq (h : g.dominators = g.computeDominators.2.dominators) :
    g.detectLoops heuristic = { g with loops := g.findLoops heuristic } := by
  cases heuristic with
  | dominance =>
      show { g.ensureDominators with loops := g.ensureDominators.findLoops .dominance } = _
      rw [ensureDominators_eq h]
  | addressOrder => rfl

theorem blocks_detectLoops : (g.detectLoops heuristic).blocks = g.blocks := by
  cases heuristic with
  | dominance =>
      show g.ensureDominators.blocks = g.blocks
      unfold ensureDominators
      split <;> rfl
  | addressOrder => rfl

theorem instructions_detectLoops : (g.detectLoops heuristic).instructions = g.instructions := by
  rw [instructions, blocks_detectLoops, instructions]

theorem solved_iff :
    g.Solved heuristic ↔
      g.dominators = g.solveDominators.2 ∧ g.loops = g.findLoops heuristic ∧
        g.reaching = (g.solveReaching (.ofCount g.count)).2 ∧
        g.live = (g.solveLive (.ofCount g.count)).2 := by
  constructor
  · intro h
    refine ⟨h.dominators, ?_, h.reaching, h.live⟩
    have hloops := h.loops
    rwa [detectLoops_eq h.dominators] at hloops
  · rintro ⟨hdominators, hloops, hreaching, hlive⟩
    refine ⟨hdominators, ?_, hreaching, hlive⟩
    rwa [detectLoops_eq hdominators]

/-- The analyses, run one after the other on any graph, leave a solved graph behind. -/
theorem solved_analyze (heuristic : LoopHeuristic) (g : FlowGraph) :
    (g.computeDominators.2.detectLoops heuristic).analyze.1.Solved heuristic := by
  rw [detectLoops_eq rfl, solved_iff]
  exact ⟨rfl, rfl, rfl, rfl⟩

theorem Solved.analyze_eq (h : g.Solved heuristic) : g.analyze.1 = g := by
  calc g.analyze.1
      = { g with reaching := g.analyze.1.reaching, live := g.analyze.1.live } := rfl
    _ = { g with reaching := g.reaching, live := g.live } := by rw [← h.reaching, ← h.live]

/-- Comments have no part in it. -/
theorem solved_bare : g.bare.Solved heuristic ↔ g.Solved heuristic := by
  rw [solved_iff, solved_iff, solveDominators_bare, findLoops_bare, solveReaching_bare,
    solveLive_bare, count_bare]
  rfl

end FlowGraph

namespace Image

variable (image : Image) (symbols : SymbolTable)

theorem bare_decode (address : Address) :
    (image.decode symbols address).bare = image.decode symbols address := by
  unfold decode decode?
  cases image.fetch address with
  | ok word =>
      show (image.decodeWord symbols address word).bare = image.decodeWord symbols address word
      unfold decodeWord
      split <;> rfl
  | error _ => rfl

theorem map_bare_listing (start stop : Address) :
    (image.listing symbols start stop).map Instruction.bare = image.listing symbols start stop := by
  simp [listing, Function.comp_def, bare_decode]

end Image

namespace Routine

/-- The routine is analyzed, and nothing that it was analyzed from has changed since. -/
structure Analyzed (image : Image) (symbols : SymbolTable) (heuristic : LoopHeuristic)
    (f : Routine) : Prop where
  code : f.graph.instructions.map Instruction.bare = image.listing symbols f.start f.stop
  solved : f.graph.Solved heuristic
  signature : f.inferSignature = f

variable (image : Image) (symbols : SymbolTable) (heuristic : LoopHeuristic) (f : Routine)

/-- The signature depends on the graph only, and on nothing that its inference changes. -/
theorem inferSignature_idem : f.inferSignature.inferSignature = f.inferSignature := rfl

theorem parameters_inferSignature :
    f.inferSignature.parameters.map (·.name) =
      argumentRegisters.filter (· ∈ liveAtEntry f.graph.analyze.1) := by
  simp [inferSignature, variableOf, Function.comp_def]

theorem instructions_analyze :
    (f.analyze image symbols heuristic).graph.instructions =
      image.listing symbols f.start f.stop := by
  let g := FlowGraph.ofListing (image.listing symbols f.start f.stop)
  calc (f.analyze image symbols heuristic).graph.instructions
      = (g.computeDominators.2.detectLoops heuristic).instructions := rfl
    _ = g.computeDominators.2.instructions := FlowGraph.instructions_detectLoops
    _ = g.instructions := rfl
    _ = image.listing symbols f.start f.stop := FlowGraph.instructions_ofListing

theorem analyzed_analyze :
    (f.analyze image symbols heuristic).Analyzed image symbols heuristic where
  code := by
    rw [instructions_analyze, image.map_bare_listing]
    rfl
  solved := FlowGraph.solved_analyze heuristic _
  signature := inferSignature_idem _

namespace Analyzed

variable {image symbols heuristic f}

/-- Changes to the comments keep an analyzed routine so, once its signature is inferred again. -/
theorem recommented {g : FlowGraph} (h : f.Analyzed image symbols heuristic)
    (hbare : g.bare = f.graph.bare) :
    (inferSignature { f with graph := g }).Analyzed image symbols heuristic := by
  have hsolved : g.Solved heuristic := by
    rw [← FlowGraph.solved_bare, hbare, FlowGraph.solved_bare]
    exact h.solved
  have hgraph : (inferSignature { f with graph := g }).graph = g := hsolved.analyze_eq
  constructor
  · rw [hgraph, ← FlowGraph.instructions_bare, hbare, FlowGraph.instructions_bare]
    exact h.code
  · rw [hgraph]
    exact hsolved
  · exact inferSignature_idem _

/-- The flags and the pseudocode have no part in the analysis. -/
theorem remarked (h : f.Analyzed image symbols heuristic) (pseudocode : String)
    (isInterruptHandler isTask : Bool) (taskPriority : Option Word) :
    Routine.Analyzed image symbols heuristic
      { f with pseudocode, isInterruptHandler, isTask, taskPriority } where
  code := h.code
  solved := h.solved
  signature :=
    congrArg
      (fun f : Routine => { f with pseudocode, isInterruptHandler, isTask, taskPriority })
      h.signature

end Analyzed

end Routine

/-! ## Detection -/

theorem Constants.map_fst_scan (known : Constants) (instructions : List Instruction) :
    (known.scan instructions).map (·.1) = instructions := by
  induction instructions generalizing known with
  | nil => rfl
  | cons insn rest ih => simp [scan, ih]

namespace Descriptor

variable (d : Descriptor)

theorem bare_annotate (insn : Instruction) (known : Constants) :
    (d.annotate insn known).1.bare = insn.bare := by
  unfold annotate
  split
  · exact insn.bare_annotate _
  · rfl

theorem bare_annotateBlock (b : Block) : (d.annotateBlock b).bare = b.bare := by
  have hbare : ((d.annotated b.withConstants).map (·.1)).map Instruction.bare =
      (b.withConstants.map (·.1)).map Instruction.bare := by
    simp [annotated, Function.comp_def, bare_annotate]
  rw [Block.withConstants, Constants.map_fst_scan] at hbare
  simp only [annotateBlock, Block.bare, Block.withConstants, hbare]

theorem bare_annotateRoutine (f : Routine) : (d.annotateRoutine f).graph.bare = f.graph.bare := by
  simp [annotateRoutine, FlowGraph.bare, bare_annotateBlock]

end Descriptor

namespace Routine

variable {image : Image} {symbols : SymbolTable} {heuristic : LoopHeuristic} {f : Routine}

theorem Analyzed.annotateRoutine (h : f.Analyzed image symbols heuristic) (d : Descriptor) :
    (d.annotateRoutine f).inferSignature.Analyzed image symbols heuristic :=
  h.recommented (d.bare_annotateRoutine f)

/-- A routine keeps its mark of a task, and its priority unless a call that creates it tells one. -/
theorem markTask_eq_or (f : Routine) (created : CreatedTasks) :
    f.markTask created = { f with
      isTask := f.isTask || (created.get? f.start).isSome ||
        (!f.graph.loops.isEmpty && f.callsFreeRtos)
      taskPriority := (created.get? f.start).getD f.taskPriority } := by
  unfold markTask
  split
  · next priority hcreated => simp [hcreated]
  · next hcreated =>
    split
    · next hloops => simp [hcreated, hloops]
    · next hloops => simp [hcreated, hloops]

theorem markHandler_eq_or (f : Routine) (registered : List Address) :
    f.markHandler registered = { f with
      isInterruptHandler := f.isInterruptHandler || f.handlesInterrupts registered } := by
  unfold markHandler
  split
  · next h => simp [h]
  · next h => simp [h]

/-- Of a routine that is looked at for tasks, only the marks of a task may change. -/
theorem markTask_eq (f : Routine) (created : CreatedTasks) :
    ∃ isTask taskPriority, f.markTask created = { f with isTask, taskPriority } :=
  ⟨_, _, f.markTask_eq_or created⟩

theorem markHandler_eq (f : Routine) (registered : List Address) :
    ∃ isInterruptHandler, f.markHandler registered = { f with isInterruptHandler } :=
  ⟨_, f.markHandler_eq_or registered⟩

theorem Analyzed.markTask (h : f.Analyzed image symbols heuristic) (created : CreatedTasks) :
    (f.markTask created).Analyzed image symbols heuristic := by
  obtain ⟨isTask, taskPriority, heq⟩ := f.markTask_eq created
  rw [heq]
  exact h.remarked _ _ _ _

theorem Analyzed.markHandler (h : f.Analyzed image symbols heuristic) (registered : List Address) :
    (f.markHandler registered).Analyzed image symbols heuristic := by
  obtain ⟨isInterruptHandler, heq⟩ := f.markHandler_eq registered
  rw [heq]
  exact h.remarked _ _ _ _

end Routine

end FirmwareLift
