import FirmwareLift.Proofs.FlowGraph.Relabel
import FirmwareLift.Proofs.Listing
import FirmwareLift.Proofs.Numeral

/-!
# Named targets

A branch, jump or call shows the name of its target if there is one, and the target is read back
from that text. So naming an address hides the edges to it, and nothing else changes in a graph.
-/

namespace FirmwareLift

def Instruction.withoutOperands (insn : Instruction) : Instruction :=
  { insn with operands := [] }

namespace Descriptor

/-- The descriptor of the same target in which no address has a name. -/
def unnamed (d : Descriptor) : Descriptor :=
  { d with knownFunctions := .empty }

def listing (d : Descriptor) (bytes : Array UInt8) (start stop : Address) : List Instruction :=
  Image.listing { base := d.flashBase, bytes } d.knownFunctions start stop

/-- The graph of a range of the image, with its loops by dominance. -/
def graph (d : Descriptor) (bytes : Array UInt8) (start stop : Address) : FlowGraph :=
  (FlowGraph.ofListing (d.listing bytes start stop)).detectLoops .dominance

/--
Where a target of the range is shown by a name, the name reads as an address of the range exactly if
that is the target. A name that is no numeral is fine for targets outside the range only.
-/
def NamesAgree (d : Descriptor) (bytes : Array UInt8) (start stop : Address) : Prop :=
  ∀ insn ∈ d.unnamed.listing bytes start stop, ∀ place ∈ insn.target?,
    ∀ name ∈ d.knownFunctions.shownAt? place,
      ∀ a ∈ wordsBetween start stop, Operand.value? name = some a ↔ place = a

instance (d : Descriptor) (bytes : Array UInt8) (start stop : Address) :
    Decidable (d.NamesAgree bytes start stop) :=
  -- The range is searched here, never the whole address space.
  decidable_of_iff
    ((d.unnamed.listing bytes start stop).all fun insn => insn.target?.all fun place =>
      (d.knownFunctions.shownAt? place).all fun name => (wordsBetween start stop).all fun a =>
        Operand.value? name = some a ↔ place = a) <| by
    simp only [List.all_eq_true, Option.all_eq_true, decide_eq_true_eq]
    rfl

end Descriptor

namespace Image

variable (image : Image) (names : SymbolTable)

theorem withoutOperands_decode (address : Address) :
    (image.decode names address).withoutOperands =
      (image.decode .empty address).withoutOperands := by
  unfold decode decode? decodeWord
  cases image.fetch address with
  | error _ => rfl
  | ok word =>
      simp only [Except.map]
      cases Encoding.form? word <;> rfl

theorem kind_decode (address : Address) :
    (image.decode names address).kind = (image.decode .empty address).kind := by
  change (image.decode names address).withoutOperands.kind = _
  rw [withoutOperands_decode]
  rfl

/-- The text of an operand depends on the names only if it is a target that has one. -/
theorem value?_text (address : Address) (form : Encoding.OperandForm) :
    Operand.value? (form.text names image address) =
        Operand.value? (form.text .empty image address) ∨
      ∃ place name, Operand.value? (form.text .empty image address) = some place ∧
        names.shownAt? place = some name ∧
        Operand.value? (form.text names image address) = Operand.value? name := by
  cases form with
  | target offset =>
      have hplain : Encoding.OperandForm.text .empty image address (.target offset) =
          Text.Numeral.hex (relativeAddress address offset) := rfl
      rw [hplain, Operand.value?_hex, Encoding.OperandForm.text]
      cases hname : names.shownAt? (relativeAddress address offset) with
      | none => exact .inl (Operand.value?_hex _)
      | some name => exact .inr ⟨_, name, rfl, hname, rfl⟩
  | register _ | unsigned _ | signed _ | literal _ => exact .inl rfl

theorem target?_of_kind_eq {insn other : Instruction} (h : insn.kind = other.kind) :
    (insn.target? = none ∧ other.target? = none) ∨
      (insn.target? = insn.operands.getLast?.bind Operand.value? ∧
        other.target? = other.operands.getLast?.bind Operand.value?) := by
  have hreads : (insn.isBranch || insn.isJump || insn.isCall) =
      (other.isBranch || other.isJump || other.isCall) := by
    simp only [Instruction.isBranch, Instruction.isJump, Instruction.isCall, h]
  rw [Instruction.target?, Instruction.target?, hreads]
  split
  · exact .inr ⟨rfl, rfl⟩
  · exact .inl ⟨rfl, rfl⟩

/-- The target that is read back is the one without names, or what its name reads as. -/
theorem target?_decode (address : Address) :
    (image.decode names address).target? = (image.decode .empty address).target? ∨
      ∃ place name, (image.decode .empty address).target? = some place ∧
        names.shownAt? place = some name ∧
        (image.decode names address).target? = Operand.value? name := by
  rcases target?_of_kind_eq (image.kind_decode names address) with ⟨hnone, hnone'⟩ | ⟨hread, hread'⟩
  · exact .inl (hnone.trans hnone'.symm)
  · rw [hread, hread']
    unfold decode decode? decodeWord
    cases image.fetch address with
    | error _ => exact .inl rfl
    | ok word =>
        simp only [Except.map]
        cases Encoding.form? word with
        | none => exact .inl rfl
        | some form =>
            simp only [List.getLast?_map]
            cases form.operands.getLast? with
            | none => exact .inl rfl
            | some last => exact image.value?_text names address last

theorem listing_eq_map (start stop : Address) :
    image.listing names start stop =
      (image.listing .empty start stop).map fun insn => image.decode names insn.address := by
  simp [listing, Function.comp_def]

end Image

namespace Descriptor

variable {d : Descriptor} {bytes : Array UInt8} {start stop : Address}

theorem NamesAgree.keeps (h : d.NamesAgree bytes start stop) :
    FlowGraph.Keeps
      (fun insn => Image.decode { base := d.flashBase, bytes } d.knownFunctions insn.address)
      (d.unnamed.listing bytes start stop) where
  address insn _ := Image.address_decode ..
  kind insn hinsn := by
    obtain ⟨address, -, rfl⟩ := List.mem_map.1 hinsn
    simp only [Image.address_decode]
    exact Image.kind_decode ..
  target insn hinsn a ha := by
    have hrange : a ∈ wordsBetween start stop := by
      rwa [listing, Image.addresses_listing] at ha
    have hagree := h insn hinsn
    obtain ⟨address, -, rfl⟩ := List.mem_map.1 hinsn
    simp only [Image.address_decode]
    rcases Image.target?_decode { base := d.flashBase, bytes } d.knownFunctions address with
      hsame | ⟨place, name, hplace, hname, htarget⟩
    · rw [hsame]
      rfl
    · rw [htarget, hagree place hplace name hname a hrange]
      exact Option.some_inj.symm.trans (iff_of_eq (congrArg (· = some a) hplace.symm))

/-- Where the names agree with the targets, they change the text of operands and nothing else. -/
theorem graph_of_namesAgree (h : d.NamesAgree bytes start stop) :
    (d.graph bytes start stop).mapInstructions Instruction.withoutOperands =
      (d.unnamed.graph bytes start stop).mapInstructions Instruction.withoutOperands := by
  let image : Image := { base := d.flashBase, bytes }
  have hlisting : d.listing bytes start stop =
      (d.unnamed.listing bytes start stop).map fun insn =>
        image.decode d.knownFunctions insn.address := image.listing_eq_map _ _ _
  rw [graph, graph, ← FlowGraph.detectLoops_mapInstructions,
    ← FlowGraph.detectLoops_mapInstructions, hlisting, h.keeps.ofListing_map,
    FlowGraph.mapInstructions_mapInstructions]
  refine congrArg (·.detectLoops .dominance) (FlowGraph.mapInstructions_congr ?_)
  rw [FlowGraph.instructions_ofListing]
  intro insn hinsn
  obtain ⟨address, -, rfl⟩ := List.mem_map.1 hinsn
  simp only [Function.comp_apply, Image.address_decode]
  exact image.withoutOperands_decode d.knownFunctions address

/-- A call of a named function outside the range, and a jump back to it. -/
def callingLoop : Array UInt8 := #[0x25, 0x0f, 0xe4, 0xfc, 0x06, 0xfe, 0xff, 0xff]

theorem graph_callingLoop :
    esp32.NamesAgree callingLoop 0x400d0000 0x400d0008 ∧
      (esp32.graph callingLoop 0x400d0000 0x400d0008).mapInstructions
          Instruction.withoutOperands =
        (esp32.unnamed.graph callingLoop 0x400d0000 0x400d0008).mapInstructions
          Instruction.withoutOperands := by
  have hagree : esp32.NamesAgree callingLoop 0x400d0000 0x400d0008 := by decide +kernel
  exact ⟨hagree, graph_of_namesAgree hagree⟩

/-- A device with a name for the first address of its flash memory. -/
def named (name : String) : Descriptor :=
  { esp32 with knownFunctions := .ofList [(name, 0x400d0000)] }

def selfJump : Array UInt8 := #[0x06, 0xff, 0xff, 0xff]

/-- The loop of the jump is lost when the address has a name. -/
theorem graph_named_selfJump :
    ((named "main").graph selfJump 0x400d0000 0x400d0004).mapInstructions
        Instruction.withoutOperands ≠
      ((named "main").unnamed.graph selfJump 0x400d0000 0x400d0004).mapInstructions
        Instruction.withoutOperands := by
  intro h
  have hedges := congrArg FlowGraph.edgeCount h
  revert hedges
  decide +kernel

end Descriptor

end FirmwareLift
