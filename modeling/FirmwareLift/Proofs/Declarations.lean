import FirmwareLift.Proofs.Dataflow.Reaching
import FirmwareLift.Proofs.Dataflow.Types
import FirmwareLift.Proofs.Pseudocode.Returns
import FirmwareLift.Proofs.Routine
import FirmwareLift.Pseudocode.Walk

/-!
# Declared registers

The parameters and the locals of a routine are the registers of its code without the reserved ones,
each of them once. So a value that a routine returns is in a register that it declares.
-/

namespace FirmwareLift

/-! ## Ids of the blocks -/

namespace FlowGraph

variable {g : FlowGraph}

theorem indexed_bare : g.bare.Indexed ↔ g.Indexed := by
  have hblock : ∀ id, g.bare.block? id = (g.block? id).map Block.bare :=
    g.block?_mapInstructions Instruction.bare
  constructor
  · intro h id b hb
    exact h id b.bare (by rw [hblock, hb, Option.map_some])
  · intro h id b hb
    rw [hblock, Option.map_eq_some_iff] at hb
    obtain ⟨b, hb, rfl⟩ := hb
    exact h id b hb

end FlowGraph

namespace Routine

variable (f : Routine)

/-- The names of the variables that the definition of a routine declares. -/
def declared : List String :=
  (f.parameters ++ f.locals).map (·.name)

structure WellDeclared : Prop where
  once : ∀ insn ∈ f.graph.instructions, ∀ r ∈ insn.operands, Operand.isRegister r = true →
    r ∉ reservedRegisters → f.declared.count r = 1
  nodup : f.declared.Nodup
  reserved : ∀ r ∈ reservedRegisters, r ∉ f.declared
  arguments : (f.parameters.map (·.name)).Sublist argumentRegisters
  returned : ∀ library, ∀ line ∈ f.graph.lines library (f.returnType ≠ "void") 1,
    line.text = valueReturn → "a2" ∈ f.declared ∨ library.Gives valueReturn

theorem locals_inferSignature :
    f.inferSignature.locals.map (·.name) =
      f.graph.inferTypes.keys.filter fun r =>
        r ∉ reservedRegisters && r ∉ f.inferSignature.parameters.map (·.name) := by
  simp [inferSignature, variableOf, Function.comp_def, FlowGraph.analyze]

variable {f} {r : String}

theorem mem_declared_inferSignature :
    r ∈ f.inferSignature.declared ↔
      r ∈ f.inferSignature.parameters.map (·.name) ∨
        r ∈ f.graph.inferTypes.keys ∧ r ∉ reservedRegisters := by
  rw [declared, List.map_append, List.mem_append, locals_inferSignature, List.mem_filter]
  by_cases h : r ∈ f.inferSignature.parameters.map (·.name) <;> simp [h]

theorem nodup_declared_inferSignature : f.inferSignature.declared.Nodup := by
  rw [declared, List.map_append]
  refine List.nodup_append.2 ⟨?_, ?_, ?_⟩
  · rw [parameters_inferSignature]
    exact List.Nodup.filter _ (by decide)
  · rw [locals_inferSignature]
    exact (OrderedMap.nodup_keys _).filter _
  · intro r hparameter r' hlocal heq
    rw [locals_inferSignature, List.mem_filter] at hlocal
    simp_all

theorem reserved_not_mem_declared (h : r ∈ reservedRegisters) :
    r ∉ f.inferSignature.declared := by
  have hdisjoint : ∀ r ∈ reservedRegisters, r ∉ argumentRegisters := by decide
  rw [mem_declared_inferSignature, parameters_inferSignature, List.mem_filter]
  rintro (⟨hargument, -⟩ | ⟨-, hreserved⟩)
  · exact hdisjoint r h hargument
  · exact hreserved h

theorem mem_declared_of_mem_operands {insn : Instruction} (hinsn : insn ∈ f.graph.instructions)
    (hr : r ∈ insn.operands) (hregister : Operand.isRegister r = true)
    (hreserved : r ∉ reservedRegisters) : r ∈ f.inferSignature.declared :=
  mem_declared_inferSignature.2
    (.inr ⟨FlowGraph.mem_keys_inferTypes.2 ⟨insn, hinsn, hregister, .inl hr⟩, hreserved⟩)

/-- The value that is returned was defined by an instruction, so its register is declared. -/
theorem mem_declared_of_returnType (hg : f.graph.Indexed)
    (h : f.inferSignature.returnType ≠ "void") : "a2" ∈ f.inferSignature.declared := by
  have hreturns : returnsValue f.graph.analyze.1 = true := by
    by_contra hnot
    exact h (if_neg hnot)
  obtain ⟨exit, -, hexit⟩ := List.any_eq_true.1 hreturns
  rw [Bool.and_eq_true, decide_eq_true_eq] at hexit
  obtain ⟨insn, hinsn, hr⟩ := FlowGraph.mem_operands_of_mem_behindBlock hg hexit.2
  exact mem_declared_of_mem_operands hinsn hr (by decide) (by decide)

theorem wellDeclared_inferSignature (hg : f.graph.Indexed) : f.inferSignature.WellDeclared where
  once insn hinsn r hr hregister hreserved :=
    List.count_eq_one_of_mem nodup_declared_inferSignature
      (mem_declared_of_mem_operands hinsn hr hregister hreserved)
  nodup := nodup_declared_inferSignature
  reserved r := reserved_not_mem_declared
  arguments := by
    rw [parameters_inferSignature]
    exact List.filter_sublist
  returned library line hline htext := by
    refine (FlowGraph.returnsValue_of_mem_lines hline htext).imp_left fun hreturns => ?_
    exact mem_declared_of_returnType hg (of_decide_eq_true hreturns)

/-! ## Passes -/

theorem indexed_analyze (image : Image) (symbols : SymbolTable) (heuristic : LoopHeuristic)
    (f : Routine) : (f.analyze image symbols heuristic).graph.Indexed := by
  let listing := image.listing symbols f.start f.stop
  have hblocks : (f.analyze image symbols heuristic).graph.blocks =
      (FlowGraph.ofListing listing).blocks := FlowGraph.blocks_detectLoops
  intro id b hb
  rw [FlowGraph.block?, hblocks] at hb
  exact FlowGraph.indexed_ofListing listing id b hb

theorem indexed_annotateRoutine (d : Descriptor) (hg : f.graph.Indexed) :
    (d.annotateRoutine f).graph.Indexed := by
  rwa [← FlowGraph.indexed_bare, d.bare_annotateRoutine, FlowGraph.indexed_bare]

/-- The routine behind API passes; its signature is inferred again behind each of them. -/
def behindPasses (passes : List Descriptor) (f : Routine) : Routine :=
  passes.foldl (fun f d => (d.annotateRoutine f).inferSignature) f

theorem wellDeclared_behindPasses {passes : List Descriptor} (hg : f.graph.Indexed)
    (hsigned : f.inferSignature = f) : (f.behindPasses passes).WellDeclared := by
  induction passes generalizing f with
  | nil =>
      show f.WellDeclared
      rw [← hsigned]
      exact wellDeclared_inferSignature hg
  | cons d rest ih => exact ih (indexed_annotateRoutine d hg) (inferSignature_idem _)

/--
A routine that is analyzed declares its registers, also behind API passes. With the common idioms
it returns a value only if it declares the register of the value.
-/
theorem declared_once (image : Image) (symbols : SymbolTable) (heuristic : LoopHeuristic)
    (f : Routine) (passes : List Descriptor) :
    ((f.analyze image symbols heuristic).behindPasses passes).WellDeclared ∧
      ∀ line ∈ ((f.analyze image symbols heuristic).behindPasses passes).graph.lines .common
          (((f.analyze image symbols heuristic).behindPasses passes).returnType ≠ "void") 1,
        line.text = valueReturn →
          "a2" ∈ ((f.analyze image symbols heuristic).behindPasses passes).declared := by
  have hdeclared : ((f.analyze image symbols heuristic).behindPasses passes).WellDeclared :=
    wellDeclared_behindPasses (indexed_analyze image symbols heuristic f) (inferSignature_idem _)
  refine ⟨hdeclared, fun line hline htext => ?_⟩
  exact (hdeclared.returned .common line hline htext).resolve_right IdiomLibrary.not_gives_common

end Routine

end FirmwareLift
