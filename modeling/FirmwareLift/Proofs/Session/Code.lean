import FirmwareLift.Proofs.Routine
import FirmwareLift.Proofs.Session.Operations
import FirmwareLift.Proofs.Tiling

/-!
# The code of a session

The routines of an analyzed image together hold every word from the start of the first one up to the
stop of the last one, in order and once.
-/

namespace FirmwareLift

namespace Session

/-- All instructions: the routines in order, and of each of them the blocks in order. -/
def code (s : Session) : List Instruction :=
  s.routines.flatMap (·.graph.instructions)

variable (s : Session)

theorem tiles_analyzed :
    ∃ start stop, s.image.base ≤ start ∧
      Tiles (s.analyzed.routines.map fun f => (f.start, f.stop)) start stop := by
  have hbounds : (s.analyzed.routines.map fun f => (f.start, f.stop)) =
      (s.descriptor.discover s.image s.resolvedEntry).map fun f => (f.start, f.stop) := by
    simp only [analyzed, discovered, List.map_map]
    rfl
  rw [hbounds]
  exact s.descriptor.tiles_discover s.image s.resolvedEntry

theorem code_analyzed :
    s.analyzed.code = (s.analyzed.routines.map fun f => (f.start, f.stop)).flatMap fun range =>
      s.image.listing s.descriptor.knownFunctions range.1 range.2 := by
  simp only [code, analyzed, List.map_map, List.flatMap_map]
  exact List.flatMap_congr fun f _ => Routine.instructions_analyze _ _ _ f

theorem addresses_code {start stop : Address}
    (h : Tiles (s.analyzed.routines.map fun f => (f.start, f.stop)) start stop) :
    s.analyzed.code.map (·.address) = wordsBetween start stop := by
  rw [code_analyzed, List.map_flatMap]
  simp only [Image.addresses_listing]
  exact h.flatMap_wordsBetween

theorem decode_address {insn : Instruction} (h : insn ∈ s.analyzed.code) :
    s.image.decode s.descriptor.knownFunctions insn.address = insn := by
  rw [code_analyzed] at h
  obtain ⟨_, _, h⟩ := List.mem_flatMap.1 h
  obtain ⟨address, _, rfl⟩ := List.mem_map.1 h
  rw [Image.address_decode]

/-- The addresses run from the first start to the last stop, as numbers and so without a wrap. -/
theorem addresses_code_eq_range' {first last : Routine}
    (hfirst : s.analyzed.routines.head? = some first)
    (hlast : s.analyzed.routines.getLast? = some last) :
    ∃ count, s.analyzed.code.map (·.address.toNat) = List.range' first.start.toNat count 4 ∧
      ∀ k, k < count ↔ first.start.toNat + 4 * k < last.stop.toNat := by
  obtain ⟨start, stop, -, htiles⟩ := s.tiles_analyzed
  have hhead : (s.analyzed.routines.map fun f => (f.start, f.stop)).head? =
      some (first.start, first.stop) := by
    rw [List.head?_map, hfirst]
    rfl
  have hend : (s.analyzed.routines.map fun f => (f.start, f.stop)).getLast? =
      some (last.start, last.stop) := by
    rw [List.getLast?_map, hlast]
    rfl
  have hstart : first.start = start := htiles.start_of_head? hhead
  have hstop : last.stop = stop := htiles.stop_of_getLast? hend
  refine ⟨(stop.toNat - start.toNat + 3) / 4, ?_, ?_⟩
  · rw [hstart, ← toNat_wordsBetween, ← s.addresses_code htiles, List.map_map]
    rfl
  · intro k
    rw [hstart, hstop]
    omega

theorem word_of_mem_code {insn : Instruction} (h : insn ∈ s.analyzed.code) :
    s.image.base ≤ insn.address ∧
      insn.word.toNat =
        if (insn.address - s.image.base).toNat + 4 ≤ s.image.bytes.size then
          littleEndian ((s.image.bytes.toList.drop (insn.address - s.image.base).toNat).take 4)
        else 0 := by
  obtain ⟨start, stop, hbase, htiles⟩ := s.tiles_analyzed
  have hmem : insn.address ∈ wordsBetween start stop := by
    rw [← s.addresses_code htiles]
    exact List.mem_map_of_mem h
  have haligned : insn.address % Instruction.width = 0 := by
    rw [← UInt32.toNat_inj, UInt32.toNat_mod]
    exact htiles.aligned_of_mem hmem
  have hbelow : s.image.base ≤ insn.address := UInt32.le_trans hbase (mem_wordsBetween.1 hmem).1
  have hword := s.image.toNat_word_decode s.descriptor.knownFunctions haligned hbelow
  rw [s.decode_address h] at hword
  exact ⟨hbelow, hword⟩

/--
Loading an image and running the first three stages never fails. What the routines then hold is the
range from the first start up to the last stop, word by word: no word is missing, none occurs
twice, and no address wraps around. Every instruction carries the bytes at its address, the lowest
one first, or zero where the image has less than four bytes left.
-/
theorem code_conserved (bytes : Array UInt8) :
    ∃ reports next,
      (do
        let (_, s) ← (s.load bytes).analyzeEntry
        let (_, s) ← s.discover
        s.analyze) = .ok (reports, next) ∧
      (∀ first last, next.routines.head? = some first → next.routines.getLast? = some last →
        ∃ count, next.code.map (·.address.toNat) = List.range' first.start.toNat count 4 ∧
          ∀ k, k < count ↔ first.start.toNat + 4 * k < last.stop.toNat) ∧
      ∀ insn ∈ next.code, s.descriptor.flashBase ≤ insn.address ∧
        insn.word.toNat =
          if (insn.address - s.descriptor.flashBase).toNat + 4 ≤ bytes.size then
            littleEndian
              ((bytes.toList.drop (insn.address - s.descriptor.flashBase).toNat).take 4)
          else 0 := by
  have hloaded : (s.load bytes).stage ≠ .unloaded := by simp [load]
  refine ⟨analysisProgress (s.load bytes).discovered.routines, (s.load bytes).analyzed, ?_, ?_, ?_⟩
  · simp only [analyzeEntry_eq_ok hloaded, discover_entered hloaded, analyze_discovered, bind,
      Except.bind]
  · intro first last hfirst hlast
    exact (s.load bytes).addresses_code_eq_range' hfirst hlast
  · intro insn hinsn
    exact (s.load bytes).word_of_mem_code hinsn

end Session

end FirmwareLift
