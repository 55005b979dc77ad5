import FirmwareLift.Proofs.Dataflow.Relabel
import FirmwareLift.Proofs.Encoding
import FirmwareLift.Proofs.Listing
import FirmwareLift.Proofs.Operand
import FirmwareLift.Proofs.Routine

/-!
# Words outside of a routine

Decoding a routine reads other words of the image only where an instruction loads a literal, and
shows them in its second operand. The analyses never look at that operand, so words outside of the
routine change nothing else.
-/

namespace FirmwareLift

namespace Instruction

variable {insn : Instruction}

/-- The instruction without the literal that it loads. -/
def withoutLiteral (insn : Instruction) : Instruction :=
  if insn.mnemonic = "l32r" then { insn with operands := insn.operands.set 1 "" } else insn

/-- A load of a literal has no comment, and the literal is no register. -/
def LiteralLast (insn : Instruction) : Prop :=
  insn.mnemonic = "l32r" → insn.comment = none ∧
    ∃ register literal, insn.operands = [register, literal] ∧ Operand.isRegister literal = false

theorem withoutLiteral_of_ne (h : insn.mnemonic ≠ "l32r") : insn.withoutLiteral = insn :=
  if_neg h

theorem address_withoutLiteral : insn.withoutLiteral.address = insn.address := by
  unfold withoutLiteral
  split <;> rfl

theorem kind_withoutLiteral : insn.withoutLiteral.kind = insn.kind := by
  unfold withoutLiteral
  split <;> rfl

theorem target?_withoutLiteral : insn.withoutLiteral.target? = insn.target? := by
  by_cases h : insn.mnemonic = "l32r"
  · have hplain : insn.kind = .plain := by simp [kind, Kind.ofMnemonic, h]
    simp [target?, isBranch, isJump, isCall, kind_withoutLiteral, hplain]
  · rw [withoutLiteral_of_ne h]

theorem LiteralLast.sameFlow (h : insn.LiteralLast) : insn.withoutLiteral.SameFlow insn := by
  by_cases hliteral : insn.mnemonic = "l32r"
  · obtain ⟨-, register, literal, hoperands, hregister⟩ := h hliteral
    have hblank : Operand.isRegister "" = false := by decide
    have hmasked : insn.withoutLiteral.operands = [register, ""] := by
      rw [withoutLiteral, if_pos hliteral, hoperands]
      rfl
    have hwrites : insn.withoutLiteral.writesFirstOperand = insn.writesFirstOperand := by
      simp only [writesFirstOperand, isStore, isBranch, isJump, isCall, kind_withoutLiteral]
    constructor
    · simp only [defined?, hwrites, hmasked, hoperands, List.head?_cons]
    · simp only [used, hwrites, hmasked, hoperands]
      split <;> simp [List.filter_cons, hregister, hblank]
    · rw [hmasked, hoperands]
      rfl
  · rw [withoutLiteral_of_ne hliteral]
    exact ⟨rfl, rfl, rfl⟩

theorem LiteralLast.sameTypes (h : insn.LiteralLast) : insn.withoutLiteral.SameTypes insn := by
  by_cases hliteral : insn.mnemonic = "l32r"
  · obtain ⟨hcomment, register, literal, hoperands, hregister⟩ := h hliteral
    have hblank : Operand.isRegister "" = false := by decide
    have hmasked : insn.withoutLiteral = { insn with operands := [register, ""] } := by
      rw [withoutLiteral, if_pos hliteral, hoperands]
      rfl
    constructor
    · intro types
      simp [TypeMap.step, hmasked, strongTypes, operandTypes, pin?, commentHas, isBranch, kind,
        Kind.ofMnemonic, hliteral, hcomment, hoperands]
    · simp [hmasked, hoperands, List.filter_cons, hregister, hblank]
  · rw [withoutLiteral_of_ne hliteral]
    exact ⟨fun _ => rfl, rfl⟩

end Instruction

/-! ## Decoding -/

namespace Image

variable {image image' : Image} {symbols : SymbolTable} {start stop : Address}

theorem text_congr {form : Encoding.OperandForm} (a : Address)
    (h : ∀ offset, form ≠ .literal offset) :
    form.text symbols image a = form.text symbols image' a := by
  cases form with
  | literal offset => exact absurd rfl (h offset)
  | register _ | unsigned _ | signed _ | target _ => rfl

theorem withoutLiteral_decodeWord (a : Address) (word : Word) :
    (image.decodeWord symbols a word).withoutLiteral =
      (image'.decodeWord symbols a word).withoutLiteral := by
  unfold decodeWord
  cases hform : Encoding.form? word with
  | none => rfl
  | some form =>
      by_cases hliteral : form.mnemonic = "l32r"
      · simp [Instruction.withoutLiteral, hliteral, Encoding.operands_of_literal hform hliteral,
          Encoding.OperandForm.text]
      · have hoperands : form.operands.map (·.text symbols image a) =
            form.operands.map (·.text symbols image' a) :=
          List.map_congr_left fun operand hmem => text_congr a fun offset heq =>
            hliteral (Encoding.mnemonic_of_literal hform (heq ▸ hmem))
        simp only [hoperands]

theorem withoutLiteral_decode {a : Address} (h : image.fetch a = image'.fetch a) :
    (image.decode symbols a).withoutLiteral = (image'.decode symbols a).withoutLiteral := by
  unfold decode decode?
  rw [h]
  cases image'.fetch a with
  | error _ => rfl
  | ok word => exact withoutLiteral_decodeWord a word

theorem literalLast_decodeWord (image : Image) (a : Address) (word : Word) :
    (image.decodeWord symbols a word).LiteralLast := by
  intro hliteral
  refine ⟨image.comment_decodeWord symbols a word, ?_⟩
  unfold decodeWord at hliteral ⊢
  cases hform : Encoding.form? word with
  | none =>
      rw [hform] at hliteral
      exact absurd hliteral (by decide : "nop" ≠ "l32r")
  | some form =>
      rw [hform] at hliteral
      simp only [Encoding.operands_of_literal hform hliteral]
      exact ⟨_, _, rfl, Operand.isRegister_hex _⟩

theorem literalLast_decode (a : Address) : (image.decode symbols a).LiteralLast := by
  unfold decode decode?
  cases image.fetch a with
  | error _ => exact fun hliteral => absurd hliteral (by decide : "nop" ≠ "l32r")
  | ok word => exact image.literalLast_decodeWord a word

theorem map_withoutLiteral_listing
    (h : ∀ a, start ≤ a → a < stop → a.toNat % 4 = 0 → image.fetch a = image'.fetch a) :
    (image.listing symbols start stop).map Instruction.withoutLiteral =
      (image'.listing symbols start stop).map Instruction.withoutLiteral := by
  rw [listing, listing, List.map_map, List.map_map]
  refine List.map_congr_left fun a ha => withoutLiteral_decode ?_
  obtain ⟨hstart, hstop, -⟩ := mem_wordsBetween.1 ha
  by_cases haligned : a.toNat % 4 = 0
  · exact h a hstart hstop haligned
  · rw [fetch_of_misaligned haligned, fetch_of_misaligned haligned]

end Image

theorem FlowGraph.keeps_withoutLiteral (listing : List Instruction) :
    Keeps Instruction.withoutLiteral listing where
  address _ _ := Instruction.address_withoutLiteral
  kind _ _ := Instruction.kind_withoutLiteral
  target _ _ a _ := by rw [Instruction.target?_withoutLiteral]

/-! ## Analysis -/

namespace Routine

variable {image image' : Image} {symbols : SymbolTable} {heuristic : LoopHeuristic} {f : Routine}

/-- The analysis of a routine as a function of its listing. -/
def analyzeListing (f : Routine) (heuristic : LoopHeuristic) (listing : List Instruction) : Routine :=
  inferSignature
    { f with graph := (FlowGraph.ofListing listing).computeDominators.2.detectLoops heuristic }

/-- The analysis commutes with a rewriting that keeps all that it looks at. -/
theorem analyzeListing_map {g : Instruction → Instruction} {listing : List Instruction}
    (hkeeps : FlowGraph.Keeps g listing) (hflow : ∀ insn ∈ listing, (g insn).SameFlow insn)
    (htypes : ∀ insn ∈ listing, (g insn).SameTypes insn) :
    f.analyzeListing heuristic (listing.map g) =
      (f.analyzeListing heuristic listing).mapInstructions g := by
  let built := (FlowGraph.ofListing listing).computeDominators.2.detectLoops heuristic
  have hinstructions : built.instructions = listing :=
    FlowGraph.instructions_detectLoops.trans FlowGraph.instructions_ofListing
  have hgraph : (FlowGraph.ofListing (listing.map g)).computeDominators.2.detectLoops heuristic =
      built.mapInstructions g := by
    rw [hkeeps.ofListing_map, FlowGraph.computeDominators_mapInstructions,
      FlowGraph.detectLoops_mapInstructions]
  rw [analyzeListing, hgraph]
  rw [← hinstructions] at hflow htypes
  exact inferSignature_mapInstructions (r := { f with graph := built })
    (by rw [hinstructions]; exact hkeeps.kind) hflow htypes

/--
Words outside of a routine change its analysis in nothing but the literals that its instructions
show: its blocks, edges and exits, all that is found in its graph, and its signature are the same.
-/
theorem analyze_local
    (h : ∀ a, f.start ≤ a → a < f.stop → a.toNat % 4 = 0 → image.fetch a = image'.fetch a) :
    (f.analyze image symbols heuristic).mapInstructions Instruction.withoutLiteral =
      (f.analyze image' symbols heuristic).mapInstructions Instruction.withoutLiteral := by
  -- Either analysis is that of the one listing in which no literal is left.
  have hmasked : ∀ image : Image,
      (f.analyze image symbols heuristic).mapInstructions Instruction.withoutLiteral =
        f.analyzeListing heuristic
          ((image.listing symbols f.start f.stop).map Instruction.withoutLiteral) := by
    intro image
    have hliteral : ∀ insn ∈ image.listing symbols f.start f.stop, insn.LiteralLast := by
      intro insn hinsn
      obtain ⟨a, -, rfl⟩ := List.mem_map.1 hinsn
      exact Image.literalLast_decode a
    exact (analyzeListing_map (FlowGraph.keeps_withoutLiteral _)
      (fun insn hinsn => (hliteral insn hinsn).sameFlow)
      (fun insn hinsn => (hliteral insn hinsn).sameTypes)).symm
  rw [hmasked image, hmasked image', Image.map_withoutLiteral_listing h]

/-- A routine of two words that loads the word behind it. -/
def loadBehind (behind : UInt8) : Image where
  base := 0x0
  bytes := #[0x21, 0x01, 0x00, 0x00, 0x0d, 0x00, 0x00, 0x00, behind, 0x00, 0x00, 0x00]

def loader : Routine where
  start := 0x0
  stop := 0x8
  name := "loader"

/-- The word behind the routine shows in its listing, and nowhere else. -/
theorem analyze_loader :
    ((loadBehind 1).listing .empty 0x0 0x8 ≠ (loadBehind 2).listing .empty 0x0 0x8 ∧
      ∀ a, loader.start ≤ a → a < loader.stop → a.toNat % 4 = 0 →
        (loadBehind 1).fetch a = (loadBehind 2).fetch a) ∧
      (loader.analyze (loadBehind 1) .empty .dominance).mapInstructions Instruction.withoutLiteral =
        (loader.analyze (loadBehind 2) .empty .dominance).mapInstructions
          Instruction.withoutLiteral := by
  have hwords : ∀ a, loader.start ≤ a → a < loader.stop → a.toNat % 4 = 0 →
      (loadBehind 1).fetch a = (loadBehind 2).fetch a := by
    intro a _ hstop haligned
    have hstop : a.toNat < 8 := UInt32.lt_iff_toNat_lt.1 hstop
    have hcases : a = 0x0 ∨ a = 0x4 := by
      rw [← UInt32.toNat_inj, ← UInt32.toNat_inj]
      change a.toNat = 0 ∨ a.toNat = 4
      omega
    rcases hcases with rfl | rfl <;> decide
  exact ⟨⟨by decide +kernel, hwords⟩, analyze_local hwords⟩

end Routine

end FirmwareLift
