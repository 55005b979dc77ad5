import FirmwareLift.Detection
import FirmwareLift.Proofs.OrderedMap
import FirmwareLift.Routine

/-!
# Constants by the last definition

What is known of a register at an instruction is what the last instruction of the block before it
that defines the register shows as a constant.
-/

namespace FirmwareLift

/-- The constant that a load shows as its second operand. -/
def Instruction.shownConstant? (insn : Instruction) : Option Word :=
  if insn.mnemonic = "movi" ∨ insn.mnemonic = "l32r" then insn.operands[1]?.bind Operand.value?
  else none

/-- The last of the instructions that define a register. -/
def lastDefinition? (before : List Instruction) (register : Operand) : Option Instruction :=
  (before.filter fun insn => insn.defined? = some register).getLast?

/-- The constant that the last definition of a register shows. -/
def knownConstant? (before : List Instruction) (register : Operand) : Option Word :=
  (lastDefinition? before register).bind Instruction.shownConstant?

/-- An instruction of a block with the instructions before it. -/
structure Place where
  before : List Instruction
  insn : Instruction

def Block.places (b : Block) : List Place :=
  b.instructions.mapIdx fun index insn => ⟨b.instructions.take index, insn⟩

/-- The instructions of all routines, each with those before it in its block. -/
def places (routines : List Routine) : List Place :=
  routines.flatMap fun f => f.graph.blocks.flatMap Block.places

theorem lastDefinition?_append (before : List Instruction) (insn : Instruction)
    (register : Operand) :
    lastDefinition? (before ++ [insn]) register =
      if insn.defined? = some register then some insn else lastDefinition? before register := by
  rw [lastDefinition?, List.filter_append]
  split
  · next h => simp [h]
  · next h => simp [h, lastDefinition?]

theorem knownConstant?_append (before : List Instruction) (insn : Instruction)
    (register : Operand) :
    knownConstant? (before ++ [insn]) register =
      if insn.defined? = some register then insn.shownConstant?
      else knownConstant? before register := by
  rw [knownConstant?, lastDefinition?_append]
  split
  · rfl
  · rfl

namespace Constants

/-- What is known behind the first instructions of a block. -/
def behind (before : List Instruction) : Constants :=
  before.foldl step .empty

theorem step_of_defined {insn : Instruction} {register : Operand} (known : Constants)
    (h : insn.defined? = some register) :
    known.step insn =
      insn.shownConstant?.elim (known.erase register) fun constant =>
        known.insert register constant := by
  rw [step, h, Instruction.shownConstant?]
  dsimp only
  split
  · next heq => rw [heq, Option.elim_some]
  · next heq => rw [heq, Option.elim_none]

theorem get?_step (known : Constants) (insn : Instruction) (register : Operand) :
    (known.step insn).get? register =
      if insn.defined? = some register then insn.shownConstant? else known.get? register := by
  cases hdefined : insn.defined? with
  | none =>
      rw [step, hdefined]
      rfl
  | some defined =>
      rw [step_of_defined known hdefined]
      cases insn.shownConstant? with
      | none => simp [OrderedMap.get?_erase, eq_comm]
      | some constant => simp [OrderedMap.get?_insert, eq_comm]

theorem get?_behind (before : List Instruction) (register : Operand) :
    (behind before).get? register = knownConstant? before register := by
  induction before using List.reverseRecOn with
  | nil => rfl
  | append_singleton before insn ih =>
      have hbehind : behind (before ++ [insn]) = (behind before).step insn := by
        rw [behind, List.foldl_append]
        rfl
      rw [hbehind, get?_step, knownConstant?_append, ih]

theorem getElem?_scan (known : Constants) (instructions : List Instruction) (index : Nat) :
    (known.scan instructions)[index]? =
      instructions[index]?.map fun insn => (insn, (instructions.take index).foldl step known) := by
  induction instructions generalizing known index with
  | nil => rfl
  | cons insn rest ih =>
      cases index with
      | zero => rfl
      | succ index => exact ih (known.step insn) index

end Constants

theorem Block.getElem?_withConstants (b : Block) (index : Nat) :
    b.withConstants[index]? =
      b.instructions[index]?.map fun insn => (insn, .behind (b.instructions.take index)) :=
  Constants.getElem?_scan .empty b.instructions index

theorem Block.withConstants_eq (b : Block) :
    b.withConstants = b.places.map fun p => (p.insn, .behind p.before) := by
  refine List.ext_getElem? fun index => ?_
  rw [getElem?_withConstants, places, List.getElem?_map, List.getElem?_mapIdx, Option.map_map]
  rfl

theorem flatMap_withConstants (routines : List Routine) :
    (routines.flatMap fun f => f.graph.withConstants) =
      (places routines).map fun p => (p.insn, .behind p.before) := by
  simp only [FlowGraph.withConstants, funext Block.withConstants_eq, places, List.map_flatMap]

end FirmwareLift
