import FirmwareLift.FlowGraph.Build
import Mathlib.Data.List.Chain

/-!
# Segments of a listing

A listing is cut before its leaders and nowhere else. In a consecutive listing this means that a
transfer ends its segment, and that the address behind a segment starts one or lies outside.
-/

namespace FirmwareLift

variable {leads : Instruction → Bool} {listing : List Instruction}

/-! ## Cutting -/

theorem not_leads_of_mem_segments {s : Instruction × List Instruction}
    (hs : s ∈ segments leads listing) : ∀ insn ∈ s.2, leads insn = false := by
  induction listing generalizing s with
  | nil => simp [segments] at hs
  | cons insn rest ih =>
      simp only [segments] at hs
      split at hs
      · simp only [List.mem_singleton] at hs
        subst hs
        simp
      · next head more later hrest =>
        rw [hrest] at ih
        split at hs
        · rcases List.mem_cons.1 hs with rfl | hs
          · simp
          · exact ih hs
        · next hhead =>
          rcases List.mem_cons.1 hs with rfl | hs
          · intro x hx
            rcases List.mem_cons.1 hx with rfl | hx
            · simpa using hhead
            · exact ih List.mem_cons_self x hx
          · exact ih (List.mem_cons_of_mem _ hs)

theorem leads_of_mem_tail_segments {s : Instruction × List Instruction}
    (hs : s ∈ (segments leads listing).tail) : leads s.1 = true := by
  induction listing with
  | nil => simp [segments] at hs
  | cons insn rest ih =>
      simp only [segments] at hs
      split at hs
      · simp at hs
      · next head more later hrest =>
        rw [hrest] at ih
        split at hs
        · next hhead =>
          rcases List.mem_cons.1 hs with rfl | hs
          · exact hhead
          · exact ih hs
        · exact ih hs

theorem head?_segments (leads : Instruction → Bool) (listing : List Instruction) :
    (segments leads listing).head?.map (·.1) = listing.head? := by
  cases listing with
  | nil => rfl
  | cons insn rest =>
      simp only [segments]
      split
      · rfl
      · split <;> rfl

theorem infix_of_mem_segments {s : Instruction × List Instruction}
    (hs : s ∈ segments leads listing) : segmentInstructions s <:+: listing := by
  rw [← flatMap_segments leads listing]
  exact List.infix_of_mem_flatten (List.mem_map_of_mem hs)

theorem exists_segment_of_leads {insn : Instruction} (hinsn : insn ∈ listing)
    (hleads : leads insn = true) : ∃ s ∈ segments leads listing, s.1 = insn := by
  rw [← flatMap_segments leads listing, List.mem_flatMap] at hinsn
  obtain ⟨s, hs, hmem⟩ := hinsn
  rcases List.mem_cons.1 hmem with rfl | hmem
  · exact ⟨s, hs, rfl⟩
  · simp [not_leads_of_mem_segments hs insn hmem] at hleads

/-! ## Consecutive listings -/

/-- Every instruction stands behind the one before it, modulo 2^32, and no address occurs twice. -/
structure Consecutive (listing : List Instruction) : Prop where
  next_eq : listing.IsChain fun insn behind => behind.address = insn.next
  nodup : (listing.map (·.address)).Nodup

theorem exists_rel_of_mem_dropLast {α : Type} {R : α → α → Prop} {l : List α} {x : α}
    (h : l.IsChain R) (hx : x ∈ l.dropLast) : ∃ y ∈ l.tail, R x y := by
  induction h with
  | nil => simp at hx
  | singleton a => simp at hx
  | @cons_cons a b l hab _ ih =>
      rcases List.mem_cons.1 hx with rfl | hx
      · exact ⟨b, List.mem_cons_self, hab⟩
      · obtain ⟨y, hy, hr⟩ := ih hx
        exact ⟨y, List.mem_cons_of_mem _ hy, hr⟩

theorem exists_rel_of_mem_tail {α : Type} {R : α → α → Prop} {l : List α} {y : α}
    (h : l.IsChain R) (hy : y ∈ l.tail) : ∃ x ∈ l.dropLast, R x y := by
  induction h with
  | nil => simp at hy
  | singleton a => simp at hy
  | @cons_cons a b l hab _ ih =>
      rcases List.mem_cons.1 hy with rfl | hy
      · exact ⟨a, List.mem_cons_self, hab⟩
      · obtain ⟨x, hx, hr⟩ := ih hy
        exact ⟨x, List.mem_cons_of_mem _ hx, hr⟩

namespace Instruction

theorem next_inj {insn other : Instruction} :
    insn.next = other.next ↔ insn.address = other.address :=
  UInt32.add_left_inj _

end Instruction

/-! ## Leaders -/

theorem mem_leaders {a : Address} :
    a ∈ leaders listing ↔ (∃ insn, listing.head? = some insn ∧ insn.address = a) ∨
      ∃ insn ∈ listing, (insn.isTransfer ∧ insn.next = a) ∨
        ((insn.isBranch || insn.isJump) ∧ insn.target? = some a) := by
  simp only [leaders, OrderedSet.mem_ofList, List.mem_append, Option.mem_toList,
    Option.map_eq_some_iff, List.mem_flatMap]
  refine or_congr Iff.rfl (exists_congr fun insn => and_congr_right fun _ => ?_)
  refine or_congr ?_ ?_
  · by_cases h : insn.isTransfer <;> simp [h, eq_comm (a := a)]
  · by_cases h : insn.isBranch || insn.isJump <;> simp [h]

def leadsIn (listing : List Instruction) (insn : Instruction) : Bool :=
  insn.address ∈ leaders listing

theorem leadsIn_iff {insn : Instruction} :
    leadsIn listing insn = true ↔ insn.address ∈ leaders listing :=
  decide_eq_true_iff

/-- The segments that become the blocks of a listing. -/
def blockSegments (listing : List Instruction) : List (Instruction × List Instruction) :=
  segments (leadsIn listing) listing

theorem mem_of_mem_blockSegments {s : Instruction × List Instruction} {insn : Instruction}
    (hs : s ∈ blockSegments listing) (hinsn : insn ∈ segmentInstructions s) : insn ∈ listing :=
  (infix_of_mem_segments hs).subset hinsn

/-- A target that lies in the listing starts a segment. -/
theorem exists_blockSegment_of_target {insn : Instruction} {target : Address}
    (hinsn : insn ∈ listing) (hkind : insn.isBranch || insn.isJump)
    (htarget : insn.target? = some target) (hmem : target ∈ listing.map (·.address)) :
    ∃ s ∈ blockSegments listing, s.1.address = target := by
  obtain ⟨x, hx, rfl⟩ := List.mem_map.1 hmem
  have hleads : leadsIn listing x :=
    leadsIn_iff.2 (mem_leaders.2 (.inr ⟨insn, hinsn, .inr ⟨hkind, htarget⟩⟩))
  obtain ⟨s, hs, rfl⟩ := exists_segment_of_leads hx hleads
  exact ⟨s, hs, rfl⟩

theorem Consecutive.transfer_last (h : Consecutive listing) {s : Instruction × List Instruction}
    {insn : Instruction} (hs : s ∈ blockSegments listing)
    (hinsn : insn ∈ (segmentInstructions s).dropLast) : insn.isTransfer = false := by
  have hchain := h.next_eq.infix (infix_of_mem_segments hs)
  obtain ⟨behind, hbehind, hnext⟩ := exists_rel_of_mem_dropLast hchain hinsn
  have hleads := not_leads_of_mem_segments hs behind hbehind
  cases htransfer : insn.isTransfer with
  | false => rfl
  | true =>
      have hmem := mem_of_mem_blockSegments hs (List.dropLast_subset _ hinsn)
      have : leadsIn listing behind :=
        leadsIn_iff.2 (mem_leaders.2 (.inr ⟨insn, hmem, .inl ⟨htransfer, hnext.symm⟩⟩))
      simp [this] at hleads

/-- The heads of the segments, in the order of the listing. -/
theorem heads_sublist (leads : Instruction → Bool) (listing : List Instruction) :
    ((segments leads listing).map (·.1)).Sublist listing := by
  have h : ∀ l : List (Instruction × List Instruction),
      (l.map (·.1)).Sublist (l.flatMap segmentInstructions) := by
    intro l
    induction l with
    | nil => exact .slnil
    | cons s l ih => exact (ih.trans (List.sublist_append_right s.2 _)).cons_cons s.1
  have := h (segments leads listing)
  rwa [flatMap_segments] at this

theorem Consecutive.nodup_starts (h : Consecutive listing) :
    ((blockSegments listing).map (·.1.address)).Nodup := by
  have hsub := (heads_sublist (leadsIn listing) listing).map (·.address)
  rw [List.map_map] at hsub
  exact hsub.nodup h.nodup

/-- Only the first segment starts where no transfer and no target makes it. -/
theorem Consecutive.start_cause (h : Consecutive listing) {s : Instruction × List Instruction}
    (hs : s ∈ (blockSegments listing).tail) :
    ∃ insn ∈ listing, (insn.isTransfer ∧ insn.next = s.1.address) ∨
      ((insn.isBranch || insn.isJump) ∧ insn.target? = some s.1.address) := by
  have hleads := leadsIn_iff.1 (leads_of_mem_tail_segments hs)
  rcases mem_leaders.1 hleads with ⟨first, hfirst, haddress⟩ | hcause
  · have hnodup := h.nodup_starts
    have hhead := head?_segments (leadsIn listing) listing
    rw [← blockSegments, hfirst] at hhead
    cases hsegments : blockSegments listing with
    | nil => simp [hsegments] at hs
    | cons s₀ rest =>
        rw [hsegments] at hs hnodup hhead
        simp only [List.head?_cons, Option.map_some, Option.some.injEq] at hhead
        rw [List.map_cons, List.nodup_cons, hhead, haddress] at hnodup
        exact absurd (List.mem_map_of_mem hs) hnodup.1
  · exact hcause

/-- The address behind a segment starts a segment, unless it lies outside the listing. -/
theorem Consecutive.next_starts (h : Consecutive listing) {s : Instruction × List Instruction}
    {last : Instruction} (hs : s ∈ blockSegments listing)
    (hlast : (segmentInstructions s).getLast? = some last)
    (hmem : last.next ∈ listing.map (·.address)) :
    ∃ s' ∈ blockSegments listing, s'.1.address = last.next := by
  obtain ⟨before, behind, hsplit⟩ := List.append_of_mem hs
  have hlisting := flatMap_segments (leadsIn listing) listing
  rw [← blockSegments, hsplit, List.flatMap_append, List.flatMap_cons] at hlisting
  cases behind with
  | cons s' behind =>
      -- The next segment starts there.
      have hchain := h.next_eq
      rw [← hlisting] at hchain
      have hchain := (List.isChain_append.1 hchain).2.1
      refine ⟨s', hsplit ▸ by simp, (List.isChain_append.1 hchain).2.2 last hlast s'.1 ?_⟩
      simp [segmentInstructions]
  | nil =>
      -- The listing ends here, so that at most its first address can follow.
      have hend : listing.getLast? = some last := by
        rw [← hlisting, List.flatMap_nil, List.append_nil, List.getLast?_append, hlast]
        rfl
      obtain ⟨x, hx, hnext⟩ := List.mem_map.1 hmem
      cases listing with
      | nil => simp at hx
      | cons first rest =>
          rcases List.mem_cons.1 hx with rfl | hx
          · have hhead := head?_segments (leadsIn (x :: rest)) (x :: rest)
            rw [← blockSegments, List.head?_cons, Option.map_eq_some_iff] at hhead
            obtain ⟨s₀, hs₀, hfirst⟩ := hhead
            exact ⟨s₀, List.mem_of_head? hs₀, hfirst ▸ hnext⟩
          · obtain ⟨y, hy, hxy⟩ := exists_rel_of_mem_tail h.next_eq hx
            have heq : y.address = last.address := Instruction.next_inj.1 (hxy.symm.trans hnext)
            have hnodup := h.nodup
            rw [← List.dropLast_append_getLast? last hend, List.map_append,
              List.nodup_append] at hnodup
            exact absurd heq
              (hnodup.2.2 y.address (List.mem_map_of_mem hy) last.address (by simp))

end FirmwareLift
