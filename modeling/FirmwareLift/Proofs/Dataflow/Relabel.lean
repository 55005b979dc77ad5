import FirmwareLift.Proofs.FlowGraph.Relabel
import FirmwareLift.Routine

/-!
# Registers of rewritten instructions

What the analyses of registers find does not depend on more of an instruction than the registers
that it defines and uses, the number of its operands, and the types that it gives. A rewriting that
keeps these commutes with the analyses and with the inference of a signature.
-/

namespace FirmwareLift

/-- Instructions that flow sets do not tell apart. -/
structure Instruction.SameFlow (insn other : Instruction) : Prop where
  defined : insn.defined? = other.defined?
  used : insn.used = other.used
  count : insn.operands.length = other.operands.length

/-- Instructions that give the same registers the same types. -/
structure Instruction.SameTypes (insn other : Instruction) : Prop where
  step : ∀ types : TypeMap, types.step insn = types.step other
  registers : insn.operands.filter Operand.isRegister = other.operands.filter Operand.isRegister

variable {f : Instruction → Instruction}

/-! ## Blocks -/

namespace Block

theorem definitions_mapInstructions {b : Block}
    (h : ∀ insn ∈ b.instructions, (f insn).SameFlow insn) :
    (b.mapInstructions f).definitions = b.definitions := by
  rw [definitions, definitions, mapInstructions, List.filterMap_map]
  exact congrArg OrderedSet.ofList (List.filterMap_congr fun insn hinsn => (h insn hinsn).defined)

theorem exposedUses_map {instructions : List Instruction}
    (h : ∀ insn ∈ instructions, (f insn).SameFlow insn) :
    exposedUses (instructions.map f) = exposedUses instructions := by
  induction instructions with
  | nil => rfl
  | cons insn rest ih =>
      obtain ⟨hinsn, hrest⟩ := List.forall_mem_cons.1 h
      simp only [List.map_cons, exposedUses, ih hrest, hinsn.defined, hinsn.used]

end Block

namespace FlowGraph

variable {g : FlowGraph}

/-! ## Flow sets -/

section

variable (h : ∀ insn ∈ g.instructions, (f insn).SameFlow insn)

include h

theorem reachBlock_mapInstructions (s : FlowSets) {b : Block} (hb : b ∈ g.blocks) :
    reachBlock s (b.mapInstructions f) = reachBlock s b := by
  have hdefinitions := Block.definitions_mapInstructions fun insn hinsn =>
    h insn (mem_instructions hb hinsn)
  simp only [reachBlock, hdefinitions]
  rfl

theorem liveBlock_mapInstructions (s : FlowSets) {b : Block} (hb : b ∈ g.blocks) :
    liveBlock s (b.mapInstructions f) = liveBlock s b := by
  have hb : ∀ insn ∈ b.instructions, (f insn).SameFlow insn := fun insn hinsn =>
    h insn (mem_instructions hb hinsn)
  have huses : (b.mapInstructions f).uses = b.uses := Block.exposedUses_map hb
  simp only [liveBlock, Block.definitions_mapInstructions hb, huses]
  rfl

theorem reachingPass_mapInstructions : (g.mapInstructions f).reachingPass = g.reachingPass := by
  funext s
  rw [reachingPass, reachingPass, mapInstructions, List.foldl_map]
  exact List.foldl_ext _ _ _ fun s _ hb => reachBlock_mapInstructions h s hb

theorem livePass_mapInstructions : (g.mapInstructions f).livePass = g.livePass := by
  funext s
  rw [livePass, livePass, mapInstructions, ← List.map_reverse, List.foldl_map]
  exact List.foldl_ext _ _ _ fun s _ hb =>
    liveBlock_mapInstructions h s (List.mem_reverse.1 hb)

theorem passLimit_mapInstructions : (g.mapInstructions f).passLimit = g.passLimit := by
  have hlengths : (g.instructions.map f).map (·.operands.length) =
      g.instructions.map (·.operands.length) := by
    rw [List.map_map]
    exact List.map_congr_left fun insn hinsn => (h insn hinsn).count
  rw [passLimit, passLimit, count_mapInstructions, instructions_mapInstructions,
    List.length_flatMap, List.length_flatMap, hlengths]

theorem solveReaching_mapInstructions :
    (g.mapInstructions f).solveReaching = g.solveReaching := by
  funext s
  rw [solveReaching, solveReaching, reachingPass_mapInstructions h, passLimit_mapInstructions h]

theorem solveLive_mapInstructions : (g.mapInstructions f).solveLive = g.solveLive := by
  funext s
  rw [solveLive, solveLive, livePass_mapInstructions h, passLimit_mapInstructions h]

end

/-! ## Types -/

theorem inferTypes_mapInstructions (h : ∀ insn ∈ g.instructions, (f insn).SameTypes insn) :
    (g.mapInstructions f).inferTypes = g.inferTypes := by
  have hsteps : g.instructions.foldl (fun types insn => TypeMap.step types (f insn)) .empty =
      g.instructions.foldl TypeMap.step .empty :=
    List.foldl_ext _ _ _ fun types insn hinsn => (h insn hinsn).step types
  have hregisters : (g.instructions.flatMap fun insn =>
      (f insn).operands.filter Operand.isRegister) =
        g.instructions.flatMap fun insn => insn.operands.filter Operand.isRegister :=
    List.flatMap_congr fun insn hinsn => (h insn hinsn).registers
  rw [inferTypes, inferTypes, instructions_mapInstructions, List.foldl_map, List.flatMap_map,
    hsteps, hregisters]

theorem analyze_mapInstructions (hflow : ∀ insn ∈ g.instructions, (f insn).SameFlow insn)
    (htypes : ∀ insn ∈ g.instructions, (f insn).SameTypes insn) :
    (g.mapInstructions f).analyze = (g.analyze.1.mapInstructions f, g.analyze.2) := by
  simp only [analyze, Dataflow.runReaching, Dataflow.runLive, Dataflow.start,
    count_mapInstructions, solveReaching_mapInstructions hflow, solveLive_mapInstructions hflow,
    inferTypes_mapInstructions htypes]
  rfl

end FlowGraph

/-! ## Signatures -/

namespace Routine

variable {r : Routine}

/-- The routine with every instruction rewritten; what was inferred about it stays. -/
def mapInstructions (f : Instruction → Instruction) (r : Routine) : Routine :=
  { r with graph := r.graph.mapInstructions f }

theorem returnsValue_mapInstructions {g : FlowGraph}
    (h : ∀ insn ∈ g.instructions, (f insn).kind = insn.kind) :
    returnsValue (g.mapInstructions f) = returnsValue g := by
  have hreturn : ∀ id, ((g.mapInstructions f).block? id).any Block.isReturn =
      (g.block? id).any Block.isReturn := by
    intro id
    rw [FlowGraph.block?_mapInstructions, Option.any_map]
    cases hb : g.block? id with
    | none => rfl
    | some b =>
        exact Block.isReturn_mapInstructions fun insn hinsn =>
          h insn (FlowGraph.mem_instructions (List.mem_of_getElem? hb) hinsn)
  simp only [returnsValue, hreturn]
  rfl

theorem inferSignature_mapInstructions
    (hkind : ∀ insn ∈ r.graph.instructions, (f insn).kind = insn.kind)
    (hflow : ∀ insn ∈ r.graph.instructions, (f insn).SameFlow insn)
    (htypes : ∀ insn ∈ r.graph.instructions, (f insn).SameTypes insn) :
    (r.mapInstructions f).inferSignature = r.inferSignature.mapInstructions f := by
  have hreturns : returnsValue (r.graph.analyze.1.mapInstructions f) =
      returnsValue r.graph.analyze.1 := returnsValue_mapInstructions hkind
  simp only [inferSignature, mapInstructions, FlowGraph.analyze_mapInstructions hflow htypes,
    hreturns]
  rfl

end Routine

/-! ## Comments

Dominators, loops and flow sets do not depend on the comments of the instructions. So what was found
in a graph stays true while comments are added to it. -/

namespace Instruction

/-- The instruction without its comment. -/
def bare (insn : Instruction) : Instruction :=
  { insn with comment := none }

@[simp] theorem isCall_bare (insn : Instruction) : insn.bare.isCall = insn.isCall := rfl

@[simp] theorem isStore_bare (insn : Instruction) : insn.bare.isStore = insn.isStore := rfl

@[simp] theorem bare_annotate (insn : Instruction) (comment : String) :
    (insn.annotate comment).bare = insn.bare := rfl

theorem sameFlow_bare (insn : Instruction) : insn.bare.SameFlow insn where
  defined := rfl
  used := rfl
  count := rfl

end Instruction

def Block.bare (b : Block) : Block :=
  { b with instructions := b.instructions.map Instruction.bare }

namespace FlowGraph

variable (g : FlowGraph)

/-- The graph without comments; what was found in it stays. -/
def bare : FlowGraph :=
  { g with blocks := g.blocks.map Block.bare }

theorem instructions_bare : g.bare.instructions = g.instructions.map Instruction.bare :=
  g.instructions_mapInstructions Instruction.bare

@[simp] theorem count_bare : g.bare.count = g.count :=
  g.count_mapInstructions Instruction.bare

theorem solveDominators_bare : g.bare.solveDominators = g.solveDominators :=
  g.solveDominators_mapInstructions Instruction.bare

theorem findLoops_bare (heuristic : LoopHeuristic) :
    g.bare.findLoops heuristic = g.findLoops heuristic :=
  g.findLoops_mapInstructions Instruction.bare heuristic

theorem solveReaching_bare : g.bare.solveReaching = g.solveReaching :=
  solveReaching_mapInstructions fun insn _ => insn.sameFlow_bare

theorem solveLive_bare : g.bare.solveLive = g.solveLive :=
  solveLive_mapInstructions fun insn _ => insn.sameFlow_bare

theorem runReaching_bare :
    (Dataflow.start g.bare).runReaching g.bare = (Dataflow.start g).runReaching g := by
  simp only [Dataflow.runReaching, Dataflow.start, count_bare, solveReaching_bare]

theorem runLive_bare : (Dataflow.start g.bare).runLive g.bare = (Dataflow.start g).runLive g := by
  simp only [Dataflow.runLive, Dataflow.start, count_bare, solveLive_bare]

end FlowGraph

end FirmwareLift
