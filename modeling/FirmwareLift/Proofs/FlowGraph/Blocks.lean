import FirmwareLift.Proofs.FlowGraph.Edges
import FirmwareLift.Proofs.FlowGraph.Segments

/-!
# Blocks of a listing

The blocks of the graph of a listing are its segments in order, and the graph finds a block by the
address at which it starts.
-/

namespace FirmwareLift.FlowGraph

def starts (g : FlowGraph) : List Address :=
  g.blocks.map (·.start)

variable {g : FlowGraph} {listing : List Instruction}

/-! ## Blocks and segments -/

theorem nodes_ofListing_eq_map (listing : List Instruction) :
    (ofListing listing).nodes =
      (blockSegments listing).zipIdx.map fun (segment, id) => Block.ofSegment segment id := by
  rw [nodes_ofListing, nodes, ofSegments, List.map_map]
  rfl

/-- A view that does not look at edges sees the segments of the listing in place of its blocks. -/
theorem map_blocks_ofListing {α : Type} (listing : List Instruction) (view : Block → α)
    (part : Instruction × List Instruction → α) (hunlinked : ∀ b, view b.unlinked = view b)
    (hsegment : ∀ s id, view (Block.ofSegment s id) = part s) :
    (ofListing listing).blocks.map view = (blockSegments listing).map part := by
  have hview : (ofListing listing).blocks.map view = (ofListing listing).nodes.map view := by
    simp [nodes, Function.comp_def, hunlinked]
  rw [hview, nodes_ofListing_eq_map, List.map_map]
  conv_rhs => rw [← List.zipIdx_map_fst 0 (blockSegments listing), List.map_map]
  exact List.map_congr_left fun entry _ => hsegment entry.1 entry.2

theorem starts_ofListing :
    (ofListing listing).starts = (blockSegments listing).map (·.1.address) :=
  map_blocks_ofListing listing _ _ (fun _ => rfl) fun _ _ => rfl

theorem mem_instructions {b : Block} {insn : Instruction} (hb : b ∈ g.blocks)
    (hinsn : insn ∈ b.instructions) : insn ∈ g.instructions :=
  List.mem_flatMap.2 ⟨b, hb, hinsn⟩

/-- The blocks hold the listing, in order. -/
theorem instructions_ofListing : (ofListing listing).instructions = listing := by
  have h := map_blocks_ofListing listing (·.instructions) segmentInstructions (fun _ => rfl)
    fun _ _ => rfl
  rw [instructions, List.flatMap, h]
  exact flatMap_segments _ _

theorem exists_segment {b : Block} (hb : b ∈ (ofListing listing).blocks) :
    ∃ s ∈ blockSegments listing,
      b.start = s.1.address ∧ b.instructions = segmentInstructions s ∧
        b.last = (s.2.getLast?.getD s.1).address := by
  have h := map_blocks_ofListing listing (fun b => (b.start, b.instructions, b.last))
    (fun s => (s.1.address, segmentInstructions s, (s.2.getLast?.getD s.1).address))
    (fun _ => rfl) fun _ _ => rfl
  have hmem := List.mem_map_of_mem (f := fun b : Block => (b.start, b.instructions, b.last)) hb
  rw [h, List.mem_map] at hmem
  obtain ⟨s, hs, heq⟩ := hmem
  simp only [Prod.mk.injEq] at heq
  exact ⟨s, hs, heq.1.symm, heq.2.1.symm, heq.2.2.symm⟩

theorem terminator?_ofListing {b : Block} (hb : b ∈ (ofListing listing).blocks) :
    ∃ last, b.terminator? = some last ∧ b.fallThrough = last.next := by
  obtain ⟨s, -, -, hinstructions, hlast⟩ := exists_segment hb
  refine ⟨s.2.getLast?.getD s.1, ?_, ?_⟩
  · rw [Block.terminator?, hinstructions, segmentInstructions, List.getLast?_cons]
  · rw [Block.fallThrough, hlast]
    rfl

/-! ## Blocks by address -/

theorem startOf?_eq_some {id : BlockId} {a : Address} :
    g.startOf? id = some a ↔ ∃ b, g.block? id = some b ∧ b.start = a := by
  rw [startOf?, Option.map_eq_some_iff]

theorem Indexed.startOf?_of_blockAt? (hg : g.Indexed) {a : Address} {id : BlockId}
    (h : g.blockAt? a = some id) : g.startOf? id = some a := by
  obtain ⟨b, hfind, rfl⟩ := Option.map_eq_some_iff.1 h
  obtain ⟨i, hi, rfl⟩ := List.mem_iff_getElem.1 (List.mem_reverse.1 (List.mem_of_find?_eq_some hfind))
  rw [hg.id_getElem hi, startOf?_eq_some]
  exact ⟨_, List.getElem?_eq_getElem hi, of_decide_eq_true (List.find?_some hfind :)⟩

theorem blockAt?_eq_none {a : Address} : g.blockAt? a = none ↔ a ∉ g.starts := by
  simp [blockAt?, starts, List.find?_eq_none]

/-- Looking up addresses and going back drops those at which no block starts. -/
theorem Indexed.map_startOf?_filterMap (hg : g.Indexed) (places : List Address) :
    (places.filterMap g.blockAt?).map g.startOf? =
      (places.filter (· ∈ g.starts)).map some := by
  induction places with
  | nil => rfl
  | cons a places ih =>
      cases h : g.blockAt? a with
      | none =>
          rw [List.filterMap_cons_none h, ih,
            List.filter_cons_of_neg (by simpa using blockAt?_eq_none.1 h)]
      | some id =>
          have hmem : a ∈ g.starts := by
            apply Decidable.byContradiction
            intro hmem
            rw [blockAt?_eq_none.2 hmem] at h
            cases h
          rw [List.filterMap_cons_some h, List.filter_cons_of_pos (by simpa using hmem),
            List.map_cons, List.map_cons, ih, hg.startOf?_of_blockAt? h]

/-- Places that coincide are found once. -/
theorem Indexed.map_startOf?_eraseDups (hg : g.Indexed) (places : List Address) :
    (places.filterMap g.blockAt?).eraseDups.map g.startOf? =
      (places.filter (· ∈ g.starts)).eraseDups.map some := by
  have hinj : ∀ x ∈ places.filterMap g.blockAt?, ∀ y ∈ places.filterMap g.blockAt?,
      g.startOf? x = g.startOf? y → x = y := by
    intro x hx y hy heq
    obtain ⟨a, -, ha⟩ := List.mem_filterMap.1 hx
    obtain ⟨a', -, ha'⟩ := List.mem_filterMap.1 hy
    rw [hg.startOf?_of_blockAt? ha, hg.startOf?_of_blockAt? ha', Option.some_inj] at heq
    subst heq
    exact Option.some.inj (ha.symm.trans ha')
  rw [← eraseDups_map hinj, hg.map_startOf?_filterMap,
    eraseDups_map fun _ _ _ _ h => Option.some.inj h]

end FirmwareLift.FlowGraph
