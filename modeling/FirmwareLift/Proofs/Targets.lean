import FirmwareLift.Proofs.Calls
import FirmwareLift.Proofs.FlowGraph.Reachable
import FirmwareLift.Proofs.FlowGraph.Refinement
import FirmwareLift.Proofs.Listing

/-!
# Targets of direct transfers

The bits of a branch, jump or call say where it leads. That place is shown in the text of the last
operand and read back from there, unless the text is a name, and so it becomes an edge of the graph.
-/

namespace FirmwareLift

open Text.Numeral (hex)

namespace Instruction

variable (insn : Instruction)

/-- A transfer whose target is in the word. -/
def IsDirect : Prop :=
  insn.isBranch = true ∨ insn.mnemonic = "j" ∨ insn.mnemonic ∈ directCalls

instance : Decidable insn.IsDirect :=
  inferInstanceAs (Decidable (_ ∨ _ ∨ _))

/-- The offset field of a direct transfer, which is shorter in branches, in two's complement. -/
def offset : Int :=
  if insn.isBranch then (insn.word.toBitVec.extractLsb' 16 8).toInt
  else (insn.word.toBitVec.extractLsb' 8 24).toInt

/-- The place that a direct transfer leads to, modulo 2^32. -/
def destination : Address :=
  .ofInt (insn.address.toNat + 4 + 4 * insn.offset)

/-- The last operand shows the destination, as a number to be read back or as one of its names. -/
structure ShowsDestination (symbols : SymbolTable) : Prop where
  aligned : insn.destination.toNat % 4 = 0
  unnamed : insn.destination ∉ symbols.values → insn.target? = some insn.destination
  named : insn.destination ∈ symbols.values →
    ∃ name ∈ symbols.namesAt insn.destination, insn.operands.getLast? = some name

end Instruction

/-- The instruction ends a block, and from there an edge leads to a block that starts at `a`. -/
structure FlowGraph.LinksTo (g : FlowGraph) (insn : Instruction) (a : Address) : Prop where
  ends_block : ∃ b ∈ g.blocks, b.terminator? = some insn
  leads : ∀ b ∈ g.blocks, b.terminator? = some insn → ∃ t ∈ g.blocks, t.start = a ∧ g.Leads b.id t.id

/-! ## Offsets -/

theorem signExtend_toNat {width : Nat} (bits : BitVec width) (hwidth : 0 < width) :
    signExtend width bits.toNat = bits.toInt := by
  have hpow : 2 ^ width = 2 * 2 ^ (width - 1) := by
    rw [← Nat.pow_succ', Nat.succ_eq_add_one, Nat.sub_add_cancel hwidth]
  rw [BitVec.toInt_eq_toNat_cond, signExtend]
  simp only [Nat.one_shiftLeft, hpow, Nat.mul_lt_mul_left (Nat.succ_pos 1)]

theorem field_eq_toNat (word : Word) (low width : Nat) :
    word.field low width = (word.toBitVec.extractLsb' low width).toNat := by
  rw [Word.field, BitVec.extractLsb'_toNat, Nat.one_shiftLeft, UInt32.toNat_toBitVec]

theorem signExtend_field (word : Word) (low : Nat) {width : Nat} (hwidth : 0 < width) :
    signExtend width (word.field low width) = (word.toBitVec.extractLsb' low width).toInt := by
  rw [field_eq_toNat, signExtend_toNat _ hwidth]

theorem ofInt_toNat (a : Address) : UInt32.ofInt a.toNat = a := by
  rw [ofInt_natCast, UInt32.ofNat_toNat]

theorem relativeAddress_eq_ofInt (a : Address) (offset : Int) :
    relativeAddress a offset = .ofInt (a.toNat + 4 + 4 * offset) := by
  rw [UInt32.ofInt_add, UInt32.ofInt_add, ofInt_toNat]
  rfl

/-! ## Operands -/

namespace SymbolTable

variable {symbols : SymbolTable} {a : Address}

theorem shownAt?_eq_none (h : a ∉ symbols.values) : symbols.shownAt? a = none :=
  Option.eq_none_iff_forall_ne_some.2 fun _ hshown => h (mem_values_of_shownAt? hshown)

theorem exists_shownAt? (h : a ∈ symbols.values) :
    ∃ name ∈ symbols.namesAt a, symbols.shownAt? a = some name := by
  obtain ⟨entry, hentry, rfl⟩ := List.mem_map.1 h
  have hne : symbols.namesAt entry.2 ≠ [] := List.ne_nil_of_mem (a := entry.1)
    (List.mem_map_of_mem (List.mem_filter.2 ⟨hentry, decide_eq_true rfl⟩))
  exact ⟨_, List.getLast_mem hne, List.getLast?_eq_getLast_of_ne_nil hne⟩

end SymbolTable

namespace Instruction

variable {insn : Instruction}

theorem not_isDirect_nop {a : Address} {word : Word} : ¬(nop a word).IsDirect := by
  simp [IsDirect, isBranch, kind, Kind.ofMnemonic, nop, directCalls]

theorem isJump_of_mnemonic (h : insn.mnemonic = "j") : insn.isJump = true := by
  simp [isJump, kind, Kind.ofMnemonic, h]

theorem IsDirect.hasTarget (h : insn.IsDirect) :
    (insn.isBranch || insn.isJump || insn.isCall) = true := by
  rcases h with h | h | h
  · rw [h, Bool.true_or, Bool.true_or]
  · rw [isJump_of_mnemonic h, Bool.or_true, Bool.true_or]
  · rw [isCall_of_directCall h, Bool.or_true]

/-- The last operand of a direct transfer is a target at the offset that its word holds. -/
theorem IsDirect.getLast?_operands_form {form : Encoding.Form} (h : insn.IsDirect)
    (hform : Encoding.form? insn.word = some form) (hmnemonic : form.mnemonic = insn.mnemonic) :
    form.operands.getLast? = some (.target insn.offset) := by
  -- A branch has its offset in the bits of an immediate, a jump or call in all upper bits.
  by_cases hbranch : insn.isBranch = true
  · have hkind : Kind.ofMnemonic form.mnemonic = .branch := by
      rw [hmnemonic]
      exact of_decide_eq_true hbranch
    rw [offset, if_pos hbranch, ← signExtend_field insn.word 16 (by decide)]
    exact Encoding.getLast?_operands_of_branch hform hkind
  · have hoperands : form.operands = [.target (signExtend 24 (insn.word.field 8 24))] := by
      rw [IsDirect, ← hmnemonic] at h
      rcases h.resolve_left hbranch with hjump | hcall
      · exact Encoding.operands_of_jump hform hjump
      · exact Encoding.operands_of_directCall hform hcall
    rw [offset, if_neg hbranch, ← signExtend_field insn.word 8 (by decide), hoperands,
      List.getLast?_singleton]

end Instruction

namespace Image

variable {image : Image} {symbols : SymbolTable} {a : Address} {word : Word}

/-- A target shows its last name, and the number where it has none. -/
theorem getLast?_operands_of_target {form : Encoding.Form} {offset : Int}
    (hform : Encoding.form? word = some form)
    (hlast : form.operands.getLast? = some (.target offset)) :
    (image.decodeWord symbols a word).operands.getLast? =
      some ((symbols.shownAt? (relativeAddress a offset)).getD (hex (relativeAddress a offset))) := by
  simp only [decodeWord, hform, List.getLast?_map, hlast]
  rfl

theorem getLast?_operands_decodeWord {insn : Instruction}
    (hinsn : image.decodeWord symbols a word = insn) (h : insn.IsDirect) :
    insn.operands.getLast? =
      some ((symbols.shownAt? insn.destination).getD (hex insn.destination)) := by
  have haddress : insn.address = a := by rw [← hinsn, address_decodeWord]
  have hword : insn.word = word := by rw [← hinsn, word_decodeWord]
  cases hform : Encoding.form? word with
  | none =>
      simp only [decodeWord, hform] at hinsn
      exact absurd (hinsn ▸ h) Instruction.not_isDirect_nop
  | some form =>
      have hmnemonic : form.mnemonic = insn.mnemonic := by
        rw [← hinsn]
        simp only [decodeWord, hform]
      have hlast := h.getLast?_operands_form (hword.symm ▸ hform) hmnemonic
      rw [Instruction.destination, ← relativeAddress_eq_ofInt, haddress, ← hinsn]
      rw [← hinsn] at hlast
      exact getLast?_operands_of_target hform hlast

theorem showsDestination_decodeWord {insn : Instruction}
    (hinsn : image.decodeWord symbols a word = insn) (haligned : a.toNat % 4 = 0)
    (h : insn.IsDirect) : insn.ShowsDestination symbols := by
  have hlast := getLast?_operands_decodeWord hinsn h
  refine ⟨?_, fun hunnamed => ?_, fun hnamed => ?_⟩
  · rw [Instruction.destination, ← relativeAddress_eq_ofInt, toNat_relativeAddress_mod, ← hinsn,
      address_decodeWord]
    exact haligned
  · rw [SymbolTable.shownAt?_eq_none hunnamed, Option.getD_none] at hlast
    rw [Instruction.target?, if_pos h.hasTarget, hlast, Option.bind_some, Operand.value?_hex]
  · obtain ⟨name, hname, hshown⟩ := SymbolTable.exists_shownAt? hnamed
    exact ⟨name, hname, by rw [hlast, hshown, Option.getD_some]⟩

theorem exists_word_of_isDirect (h : (image.decode symbols a).IsDirect) :
    a.toNat % 4 = 0 ∧ ∃ word, image.decodeWord symbols a word = image.decode symbols a := by
  unfold decode decode? at h ⊢
  cases hfetch : image.fetch a with
  | error _ =>
      rw [hfetch] at h
      exact absurd h Instruction.not_isDirect_nop
  | ok word => exact ⟨aligned_of_fetch hfetch, word, rfl⟩

end Image

/-! ## Edges -/

theorem mem_dropLast_or_getLast? {α : Type} {l : List α} {x : α} (h : x ∈ l) :
    x ∈ l.dropLast ∨ l.getLast? = some x := by
  rw [← List.dropLast_append_getLast (List.ne_nil_of_mem h), List.mem_append,
    List.mem_singleton] at h
  exact h.imp_right fun hlast => by rw [hlast, List.getLast?_eq_getLast_of_ne_nil]

namespace FlowGraph

variable {listing : List Instruction} {insn : Instruction} {a : Address}

/-- A branch or jump ends its block, and its target starts one that it leads to. -/
theorem linksTo_ofListing (h : Consecutive listing) (hinsn : insn ∈ listing)
    (hkind : insn.isBranch || insn.isJump) (htarget : insn.target? = some a)
    (hmem : a ∈ listing.map (·.address)) : (ofListing listing).LinksTo insn a := by
  have hg := indexed_ofListing listing
  refine ⟨?_, fun b hb hlast => ?_⟩
  · rw [← @instructions_ofListing listing] at hinsn
    obtain ⟨b, hb, hbody⟩ := List.mem_flatMap.1 hinsn
    obtain ⟨s, hs, -, hinstructions, -⟩ := exists_segment hb
    rw [hinstructions] at hbody
    refine ⟨b, hb, ?_⟩
    rw [Block.terminator?, hinstructions]
    -- No other instruction of a block is a transfer.
    rcases mem_dropLast_or_getLast? hbody with hbefore | hlast
    · have htransfer := h.transfer_last hs hbefore
      simp [Instruction.isTransfer, Instruction.isControlFlow, hkind] at htransfer
    · exact hlast
  · have hstarts := (target_mem_starts_iff hinsn hkind htarget).2 hmem
    cases hid : (ofListing listing).blockAt? a with
    | none => exact absurd hstarts (blockAt?_eq_none.1 hid)
    | some id =>
        obtain ⟨t, ht, rfl⟩ := startOf?_eq_some.1 (hg.startOf?_of_blockAt? hid)
        refine ⟨t, List.mem_of_getElem? ht, rfl, (hg.leads_iff hb).2 ?_⟩
        rw [successors_ofListing (hg.block?_id hb), List.mem_eraseDups, hg id t ht, follow, hlast]
        have hfound : id ∈ (insn.target?.bind (ofListing listing).blockAt?).toList := by
          rw [htarget, Option.bind_some, hid]
          exact List.mem_singleton_self id
        simp only [Instruction.isBranch, Instruction.isJump, Bool.or_eq_true,
          decide_eq_true_eq] at hkind
        rcases hkind with hkind | hkind
        · simp only [hkind]
          exact List.mem_append_left _ hfound
        · simpa only [hkind] using hfound

end FlowGraph

namespace Image

variable {image : Image} {symbols : SymbolTable}

theorem linksTo_destination {start stop : Address} {insn : Instruction}
    (hinsn : insn ∈ image.listing symbols start stop)
    (hkind : insn.isBranch = true ∨ insn.mnemonic = "j") (hstart : start ≤ insn.destination)
    (hstop : insn.destination < stop) (hunnamed : insn.destination ∉ symbols.values) :
    (FlowGraph.ofListing (image.listing symbols start stop)).LinksTo insn insn.destination := by
  have hdirect : insn.IsDirect := hkind.imp_right .inl
  obtain ⟨a, ha, rfl⟩ := List.mem_map.1 hinsn
  obtain ⟨haligned, word, hword⟩ := exists_word_of_isDirect hdirect
  have hshows := showsDestination_decodeWord hword haligned hdirect
  apply FlowGraph.linksTo_ofListing (image.consecutive_listing symbols start stop) hinsn
  · rcases hkind with hbranch | hjump
    · rw [hbranch, Bool.true_or]
    · rw [Instruction.isJump_of_mnemonic hjump, Bool.or_true]
  · exact hshows.unnamed hunnamed
  · rw [addresses_listing, mem_wordsBetween]
    exact ⟨hstart, hstop, by rw [hshows.aligned, ← (mem_wordsBetween.1 ha).2.2, haligned]⟩

/--
The destination of a direct transfer survives the text of its operand: it is aligned, and it is read
back unless it has a name, which then is shown. Where a branch or jump of a listing leads to a place
in the listing that has no name, an edge of the graph does so as well.
-/
theorem targets_survive (image : Image) (symbols : SymbolTable) :
    (∀ (a : Address) (word : Word), a.toNat % 4 = 0 →
      (image.decodeWord symbols a word).IsDirect →
        (image.decodeWord symbols a word).address = a ∧
          (image.decodeWord symbols a word).word = word ∧
          (image.decodeWord symbols a word).ShowsDestination symbols) ∧
    ∀ start stop, ∀ insn ∈ image.listing symbols start stop,
      (insn.isBranch = true ∨ insn.mnemonic = "j") →
        start ≤ insn.destination → insn.destination < stop → insn.destination ∉ symbols.values →
          (FlowGraph.ofListing (image.listing symbols start stop)).LinksTo insn insn.destination :=
  ⟨fun a word haligned hdirect => ⟨image.address_decodeWord symbols a word,
      image.word_decodeWord symbols a word, showsDestination_decodeWord rfl haligned hdirect⟩,
    fun _ _ _ hinsn hkind hstart hstop hunnamed =>
      linksTo_destination hinsn hkind hstart hstop hunnamed⟩

/-- A jump from the first word of the address space to the last one, and a branch back. -/
def acrossZero : Image where
  base := 0x0
  bytes := #[0x06, 0xfe, 0xff, 0xff, 0x07, 0x72, 0xfe, 0x00]

def jumpBelowZero : Instruction :=
  { address := 0x0, word := 0xfffffe06, mnemonic := "j", operands := ["0xfffffffc"] }

def branchToZero : Instruction :=
  { address := 0x4, word := 0x00fe7207, mnemonic := "bnez", operands := ["a2", "0x0"] }

theorem acrossZero_targets :
    (jumpBelowZero.ShowsDestination .empty ∧ jumpBelowZero.destination = 0xfffffffc) ∧
      branchToZero.destination = 0x0 ∧
      (FlowGraph.ofListing (acrossZero.listing .empty 0x0 0x8)).LinksTo branchToZero 0x0 := by
  have hlisting : acrossZero.listing .empty 0x0 0x8 = [jumpBelowZero, branchToZero] := by
    decide +kernel
  have hjump : acrossZero.decodeWord .empty 0x0 0xfffffe06 = jumpBelowZero := by decide +kernel
  have hdestination : branchToZero.destination = 0x0 := by decide +kernel
  obtain ⟨hshows, hlinks⟩ := targets_survive acrossZero .empty
  refine ⟨⟨?_, by decide +kernel⟩, hdestination, ?_⟩
  · rw [← hjump]
    exact (hshows 0x0 0xfffffe06 (by decide) (by rw [hjump]; decide)).2.2
  · rw [← hdestination]
    exact hlinks 0x0 0x8 branchToZero (by rw [hlisting]; decide) (by decide)
      (by rw [hdestination]; decide) (by rw [hdestination]; decide) (by decide +kernel)

end Image

end FirmwareLift
