import FirmwareLift.Proofs.Dataflow.Reaching
import FirmwareLift.Proofs.Dataflow.Types
import FirmwareLift.Proofs.FlowGraph.Derived
import FirmwareLift.Proofs.Routine

/-!
# Inferred signatures

A parameter is an argument register that some path from the entry uses before it defines it, and a
value is returned if some path leads from a definition of `a2` to a return.
-/

namespace FirmwareLift

namespace FlowGraph

variable {g : FlowGraph} {listing : List Instruction} {r : String}

section

variable (g : FlowGraph)

/-- A path, maybe an empty one, leads from a block that defines the register to a return. -/
def Returns (r : String) : Prop :=
  ∃ source exit b, g.Defines source r ∧ g.Reaches source exit ∧ g.block? exit = some b ∧
    b.isReturn = true

/-- The type that is inferred for the register is this one. -/
def HasType (r type : String) : Prop :=
  ∃ inferred, g.inferTypes.get? r = some inferred ∧ inferred.text = type

end

/-- The first block is the entry, and an empty graph exposes nothing. -/
theorem Extends.mem_liveAtEntry (h : g.Extends listing) :
    r ∈ Routine.liveAtEntry g.analyze.1 ↔ g.Exposed 0 r := by
  have hentry : g.analyze.1.entry = if g.count = 0 then none else some 0 := h.entry_eq_ite
  rw [Routine.liveAtEntry, hentry]
  split
  · next hempty =>
    exact iff_of_false OrderedSet.mem_empty fun hexposed =>
      absurd hexposed.exists_user.1 (Nat.not_lt.2 hempty.le)
  · exact mem_before_solution_iff h.indexed

/-- Every block that ends in a return was recorded as an exit when the graph was built. -/
theorem Extends.mem_exits_of_isReturn (h : g.Extends listing) {id : BlockId} {b : Block}
    (hb : g.block? id = some b) (hreturn : b.isReturn = true) : id ∈ g.exits := by
  obtain ⟨b', hb', heq⟩ := block?_congr h.nodes_eq hb
  have hreturn' : b'.unlinked.isReturn = true := by
    rw [heq]
    exact hreturn
  exact h.mem_exits.2 ⟨b', hb', .inr hreturn'⟩

theorem returnsValue_iff (h : g.Extends listing) :
    Routine.returnsValue g.analyze.1 = true ↔ g.Returns "a2" := by
  have hreaching : ∀ exit, "a2" ∈ g.analyze.1.reaching.behindBlock exit ↔
      ∃ source, g.Defines source "a2" ∧ g.Reaches source exit :=
    fun _ => h.mem_behind_solution_iff
  simp only [Routine.returnsValue, List.any_eq_true, Bool.and_eq_true, Option.any_eq_true,
    decide_eq_true_eq, hreaching]
  constructor
  · rintro ⟨exit, -, ⟨b, hb, hreturn⟩, source, hdefines, hreaches⟩
    exact ⟨source, exit, b, hdefines, hreaches, hb, hreturn⟩
  · rintro ⟨source, exit, b, hdefines, hreaches, hb, hreturn⟩
    exact ⟨exit, h.mem_exits_of_isReturn hb hreturn, ⟨b, hb, hreturn⟩, source, hdefines, hreaches⟩

/-! ## Types -/

theorem hasType_variableOf (h : ∃ insn ∈ g.instructions, insn.Involves r) :
    g.HasType r (Routine.variableOf g.inferTypes r).type := by
  obtain ⟨inferred, hinferred⟩ :=
    Option.isSome_iff_exists.1 (OrderedMap.isSome_get?_iff.2 (mem_keys_inferTypes.2 h))
  exact ⟨inferred, hinferred, by rw [Routine.variableOf, hinferred, Option.getD_some]⟩

theorem Exposed.involves {id : BlockId} (h : g.Exposed id r) :
    ∃ insn ∈ g.instructions, insn.Involves r :=
  h.exists_user.2.imp fun _ => And.imp_right Instruction.involves_of_mem_used

theorem Defines.involves {id : BlockId} (h : g.Defines id r) :
    ∃ insn ∈ g.instructions, insn.Involves r := by
  obtain ⟨b, hb, insn, hinsn, hdefined⟩ := h
  obtain ⟨hoperand, hregister⟩ := Instruction.mem_operands_of_defined hdefined
  exact ⟨insn, mem_instructions (List.mem_of_getElem? hb) hinsn, hregister, .inl hoperand⟩

end FlowGraph

/-! ## Signatures -/

theorem RegisterType.text_ne_void (type : RegisterType) : type.text ≠ "void" := by
  cases type <;> decide

namespace Routine

/--
The parameters and the type of the result are told by paths through the graph: from its first block
to uses, and from definitions of `a2` to returns.
-/
structure SignedByPaths (f : Routine) : Prop where
  ordered : (f.parameters.map (·.name)).Sublist argumentRegisters
  mem_parameters : ∀ r, r ∈ f.parameters.map (·.name) ↔
    r ∈ argumentRegisters ∧ f.graph.Exposed 0 r
  parameter_type : ∀ p ∈ f.parameters, f.graph.HasType p.name p.type
  returns_iff : f.returnType ≠ "void" ↔ f.graph.Returns "a2"
  return_type : f.returnType ≠ "void" → f.graph.HasType "a2" f.returnType

variable {f : Routine} {listing : List Instruction}

/-- A signature that another inference would not change is the one that the paths tell. -/
theorem signedByPaths_of_inferred (h : f.graph.Extends listing) (hf : f.inferSignature = f) :
    f.SignedByPaths := by
  have hnames : f.parameters.map (·.name) =
      argumentRegisters.filter (· ∈ liveAtEntry f.graph.analyze.1) := by
    rw [← f.parameters_inferSignature, hf]
  have hreturnType : f.returnType =
      if returnsValue f.graph.analyze.1 then (variableOf f.graph.inferTypes "a2").type
      else "void" :=
    congrArg returnType hf.symm
  have hreturns : f.returnType ≠ "void" ↔ f.graph.Returns "a2" := by
    rw [hreturnType, ← FlowGraph.returnsValue_iff h]
    split
    · next hvalue => exact iff_of_true (RegisterType.text_ne_void _) hvalue
    · next hvalue => exact iff_of_false (not_not.2 rfl) hvalue
  have hmem : ∀ r, r ∈ f.parameters.map (·.name) ↔
      r ∈ argumentRegisters ∧ f.graph.Exposed 0 r := by
    intro r
    rw [hnames, List.mem_filter, decide_eq_true_eq, h.mem_liveAtEntry]
  refine ⟨?_, hmem, fun p hp => ?_, hreturns, fun htype => ?_⟩
  · rw [hnames]
    exact List.filter_sublist
  · obtain ⟨-, hexposed⟩ := (hmem p.name).1 (List.mem_map_of_mem hp)
    have htype : p = variableOf f.graph.inferTypes p.name := by
      rw [← hf] at hp
      obtain ⟨r, -, rfl⟩ := List.mem_map.1 hp
      rfl
    rw [htype]
    exact FlowGraph.hasType_variableOf hexposed.involves
  · obtain ⟨source, _, _, hdefines, -⟩ := hreturns.1 htype
    rw [hreturnType, if_pos ((FlowGraph.returnsValue_iff h).2 (hreturns.1 htype))]
    exact FlowGraph.hasType_variableOf hdefines.involves

theorem extends_analyze (image : Image) (symbols : SymbolTable) (heuristic : LoopHeuristic)
    (f : Routine) :
    (f.analyze image symbols heuristic).graph.Extends (image.listing symbols f.start f.stop) := by
  let built := FlowGraph.ofListing (image.listing symbols f.start f.stop)
  have hdominators : built.computeDominators.2.Extends (image.listing symbols f.start f.stop) :=
    (FlowGraph.extends_ofListing _).congr rfl rfl rfl
  exact (hdominators.detectLoops heuristic).congr rfl rfl rfl

/-- The analysis of any range infers the signature that the paths through its graph tell. -/
theorem signature_of_paths (image : Image) (symbols : SymbolTable) (heuristic : LoopHeuristic)
    (f : Routine) : (f.analyze image symbols heuristic).SignedByPaths :=
  signedByPaths_of_inferred (extends_analyze image symbols heuristic f)
    (analyzed_analyze image symbols heuristic f).signature

/-- An addition of two arguments, and a return. -/
def adder : Image where
  base := 0x0
  bytes := #[0x30, 0x22, 0x00, 0x00, 0x0d, 0x00, 0x00, 0x00]

example :
    let f := ({ start := 0x0, stop := 0x8, name := "add" } : Routine).analyze adder .empty .addressOrder
    f.parameters = [⟨"a2", "int"⟩, ⟨"a3", "int"⟩] ∧ f.returnType = "int" := by
  decide +kernel

end Routine

end FirmwareLift
