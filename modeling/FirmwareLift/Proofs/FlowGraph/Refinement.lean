import FirmwareLift.Proofs.FlowGraph.Blocks

/-!
# Refinement of control flow

The graph of a consecutive listing follows the control flow between its instructions: transfers end
blocks, targets start them, and the successors of a block are what its last instruction leads to.
-/

namespace FirmwareLift

/--
Where control may go behind an instruction, the target first. A call leads to its target only if
that is among `starts`; what lies outside the listing is left out.
-/
def Instruction.continuations (insn : Instruction) (inside starts : List Address) : List Address :=
  let target := insn.target?.toList
  let next := [insn.next].filter (· ∈ inside)
  match insn.kind with
  | .ret => []
  | .jump => target.filter (· ∈ inside)
  | .branch => (target.filter (· ∈ inside) ++ next).eraseDups
  | .call => (target.filter (· ∈ starts) ++ next).take 1
  | .store | .plain => next

namespace FlowGraph

/-- The graph cuts the listing where control may enter or leave, and links it accordingly. -/
structure Refines (g : FlowGraph) (listing : List Instruction) : Prop where
  instructions_eq : g.instructions = listing
  start_eq : ∀ b ∈ g.blocks, b.instructions.head?.map (·.address) = some b.start
  nodup_starts : g.starts.Nodup
  transfer_last : ∀ b ∈ g.blocks, ∀ insn ∈ b.instructions.dropLast, insn.isTransfer = false
  target_starts : ∀ insn ∈ listing, insn.isBranch || insn.isJump →
    ∀ target, insn.target? = some target → target ∈ listing.map (·.address) → target ∈ g.starts
  start_cause : ∀ start ∈ g.starts.tail, ∃ insn ∈ listing,
    (insn.isTransfer ∧ insn.next = start) ∨
      ((insn.isBranch || insn.isJump) ∧ insn.target? = some start)
  successors_eq : ∀ b ∈ g.blocks, ∃ last, b.instructions.getLast? = some last ∧
    b.successors.map g.startOf? =
      (last.continuations (listing.map (·.address)) g.starts).map some
  exits_eq : g.exits = (g.blocks.filter (·.successors.isEmpty)).map (·.id)
  indexed : g.Indexed

variable {g : FlowGraph} {listing : List Instruction}

theorem mem_starts_ofListing {a : Address} :
    a ∈ (ofListing listing).starts ↔ ∃ s ∈ blockSegments listing, s.1.address = a := by
  rw [starts_ofListing, List.mem_map]

theorem mem_listing_of_mem_blocks {b : Block} {insn : Instruction}
    (hb : b ∈ (ofListing listing).blocks) (hinsn : insn ∈ b.instructions) : insn ∈ listing := by
  obtain ⟨s, hs, -, hinstructions, -⟩ := exists_segment hb
  exact mem_of_mem_blockSegments hs (hinstructions ▸ hinsn)

theorem mem_addresses_of_mem_starts {a : Address} (h : a ∈ (ofListing listing).starts) :
    a ∈ listing.map (·.address) := by
  obtain ⟨s, hs, rfl⟩ := mem_starts_ofListing.1 h
  exact List.mem_map_of_mem (mem_of_mem_blockSegments hs List.mem_cons_self)

/-- The address behind a block starts a block, unless it lies outside the listing. -/
theorem next_mem_starts_iff (h : Consecutive listing) {b : Block} {last : Instruction}
    (hb : b ∈ (ofListing listing).blocks) (hlast : b.terminator? = some last) :
    last.next ∈ (ofListing listing).starts ↔ last.next ∈ listing.map (·.address) := by
  refine ⟨mem_addresses_of_mem_starts, fun hmem => ?_⟩
  obtain ⟨s, hs, -, hinstructions, -⟩ := exists_segment hb
  rw [Block.terminator?, hinstructions] at hlast
  exact mem_starts_ofListing.2 (h.next_starts hs hlast hmem)

theorem target_mem_starts_iff {insn : Instruction} {target : Address} (hinsn : insn ∈ listing)
    (hkind : insn.isBranch || insn.isJump) (htarget : insn.target? = some target) :
    target ∈ (ofListing listing).starts ↔ target ∈ listing.map (·.address) :=
  ⟨mem_addresses_of_mem_starts, fun hmem =>
    mem_starts_ofListing.2 (exists_blockSegment_of_target hinsn hkind htarget hmem)⟩

/-- The places behind a block, each looked up by its address. -/
theorem follow_eq {b : Block} {last : Instruction} (hlast : b.terminator? = some last)
    (hnext : b.fallThrough = last.next) :
    g.follow b = match last.kind with
      | .ret => []
      | .jump => last.target?.toList.filterMap g.blockAt?
      | .branch => (last.target?.toList ++ [last.next]).filterMap g.blockAt?
      | .call => ((last.target?.toList ++ [last.next]).filterMap g.blockAt?).take 1
      | .store | .plain => [last.next].filterMap g.blockAt? := by
  have hlookup : ∀ a, (g.blockAt? a).toList = [a].filterMap g.blockAt? := by
    intro a
    cases h : g.blockAt? a <;> simp [h]
  have htarget : (last.target?.bind g.blockAt?).toList =
      last.target?.toList.filterMap g.blockAt? := by
    cases last.target? with
    | none => rfl
    | some target => exact hlookup target
  simp only [follow, hlast, hnext, hlookup, htarget]
  cases last.kind with
  | ret => rfl
  | jump => rfl
  | branch => rw [List.filterMap_append]
  | call =>
      rw [List.filterMap_append, ← htarget, ← hlookup]
      cases last.target?.bind g.blockAt? with
      | none => cases g.blockAt? last.next <;> rfl
      | some id => rfl
  | store => rfl
  | plain => rfl

theorem successors_refine (h : Consecutive listing) {b : Block} {last : Instruction}
    (hb : b ∈ (ofListing listing).blocks) (hlast : b.terminator? = some last) :
    b.successors.map (ofListing listing).startOf? =
      (last.continuations (listing.map (·.address)) (ofListing listing).starts).map some := by
  have hg := indexed_ofListing listing
  obtain ⟨id, hid⟩ := List.mem_iff_getElem?.1 hb
  obtain ⟨last', hlast', hfall⟩ := terminator?_ofListing hb
  obtain rfl : last = last' := Option.some.inj (hlast.symm.trans hlast')
  have hinsn : last ∈ listing := mem_listing_of_mem_blocks hb (List.mem_of_getLast? hlast)
  have hnext : [last.next].filter (· ∈ (ofListing listing).starts) =
      [last.next].filter (· ∈ listing.map (·.address)) := by
    apply List.filter_congr
    intro a ha
    rw [List.mem_singleton.1 ha]
    simp only [next_mem_starts_iff h hb hlast]
  have htarget : last.isBranch || last.isJump →
      last.target?.toList.filter (· ∈ (ofListing listing).starts) =
        last.target?.toList.filter (· ∈ listing.map (·.address)) := by
    intro hkind
    apply List.filter_congr
    intro target hmem
    simp only [target_mem_starts_iff hinsn hkind (Option.mem_toList.1 hmem)]
  have hshort : ∀ places : List Address, places.length ≤ 1 →
      (places.filterMap (ofListing listing).blockAt?).eraseDups =
        places.filterMap (ofListing listing).blockAt? := fun places hlength =>
    eraseDups_of_length_le_one ((List.length_filterMap_le _ _).trans hlength)
  rw [successors_ofListing hid, follow_eq hlast hfall, Instruction.continuations]
  cases hkind : last.kind with
  | ret => rfl
  | jump =>
      simp only
      rw [hshort _ (by cases last.target? <;> simp), hg.map_startOf?_filterMap,
        htarget (by simp [Instruction.isJump, hkind])]
  | branch =>
      simp only
      rw [hg.map_startOf?_eraseDups, List.filter_append, hnext,
        htarget (by simp [Instruction.isBranch, hkind])]
  | call =>
      simp only
      rw [eraseDups_of_length_le_one (List.length_take_le _ _), List.map_take,
        hg.map_startOf?_filterMap, List.filter_append, hnext, List.map_take]
  | store =>
      simp only
      rw [hshort _ (by simp), hg.map_startOf?_filterMap, hnext]
  | plain =>
      simp only
      rw [hshort _ (by simp), hg.map_startOf?_filterMap, hnext]

theorem successors_of_isReturn {b : Block} (hb : b ∈ (ofListing listing).blocks)
    (hret : b.isReturn = true) : b.successors = [] := by
  obtain ⟨last, hlast, hfall⟩ := terminator?_ofListing hb
  obtain ⟨id, hid⟩ := List.mem_iff_getElem?.1 hb
  rw [Block.isReturn, hlast, Option.any_some, Instruction.isReturn, decide_eq_true_eq] at hret
  rw [successors_ofListing hid, follow_eq hlast hfall, hret]
  rfl

/-- A graph that is built from a consecutive listing refines its control flow. -/
theorem ofListing_refines (h : Consecutive listing) : (ofListing listing).Refines listing where
  instructions_eq := instructions_ofListing
  start_eq b hb := by
    obtain ⟨s, -, hstart, hinstructions, -⟩ := exists_segment hb
    rw [hinstructions, hstart]
    rfl
  nodup_starts := by
    rw [starts_ofListing]
    exact h.nodup_starts
  transfer_last b hb insn hinsn := by
    obtain ⟨s, hs, -, hinstructions, -⟩ := exists_segment hb
    rw [hinstructions] at hinsn
    exact h.transfer_last hs hinsn
  target_starts insn hinsn hkind target htarget hmem :=
    (target_mem_starts_iff hinsn hkind htarget).2 hmem
  start_cause start hstart := by
    rw [starts_ofListing, ← List.map_tail, List.mem_map] at hstart
    obtain ⟨s, hs, rfl⟩ := hstart
    exact h.start_cause hs
  successors_eq b hb := by
    obtain ⟨last, hlast, -⟩ := terminator?_ofListing hb
    exact ⟨last, hlast, successors_refine h hb hlast⟩
  exits_eq := by
    have hexits : (ofListing listing).exits =
        ((ofListing listing).blocks.filter fun b => b.successors.isEmpty || b.isReturn).map (·.id) :=
      rfl
    rw [hexits]
    congr 1
    apply List.filter_congr
    intro b hb
    cases hret : b.isReturn with
    | false => rw [Bool.or_false]
    | true => rw [successors_of_isReturn hb hret]; rfl
  indexed := indexed_ofListing listing

/-- A loop that runs across the end of the address space, and the return that ends it. -/
def wrappingLoop : List Instruction :=
  [{ address := 0xfffffff4, word := 0, mnemonic := "beq", operands := ["a2", "a3", "0xfffffffc"] },
    { address := 0xfffffff8, word := 0, mnemonic := "call0", operands := ["0x0"] },
    { address := 0xfffffffc, word := 0, mnemonic := "bnez", operands := ["a2", "0xfffffff4"] },
    { address := 0x0, word := 0, mnemonic := "ret", operands := [] }]

theorem wrappingLoop_refines :
    Consecutive wrappingLoop ∧ (ofListing wrappingLoop).Refines wrappingLoop :=
  ⟨⟨by decide, by decide⟩, ofListing_refines ⟨by decide, by decide⟩⟩

end FlowGraph

end FirmwareLift
