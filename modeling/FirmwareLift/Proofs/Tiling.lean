import FirmwareLift.Discovery
import FirmwareLift.Proofs.Listing

/-!
# Tilings

The ranges that discovery finds follow each other without a gap and without an overlap, and every
one of them starts at a word. The words of such ranges are the words of the range that they cover.
-/

namespace FirmwareLift

/-- The ranges follow each other from `start` up to `stop`, and every one of them starts at a word. -/
inductive Tiles : List (Address × Address) → Address → Address → Prop
  | nil (start : Address) : Tiles [] start start
  | cons {start middle stop : Address} {rest : List (Address × Address)} :
      start.toNat % 4 = 0 → start ≤ middle → Tiles rest middle stop →
        Tiles ((start, middle) :: rest) start stop

namespace Tiles

variable {ranges : List (Address × Address)} {start stop : Address}

theorem start_le_stop (h : Tiles ranges start stop) : start ≤ stop := by
  induction h with
  | nil start => exact UInt32.le_refl start
  | cons _ hle _ ih => exact UInt32.le_trans hle ih

theorem start_le_of_mem {range : Address × Address} (h : Tiles ranges start stop)
    (hmem : range ∈ ranges) : start ≤ range.1 := by
  induction h with
  | nil => cases hmem
  | cons _ hle _ ih =>
      rcases List.mem_cons.1 hmem with rfl | hmem
      · exact UInt32.le_refl _
      · exact UInt32.le_trans hle (ih hmem)

theorem pairwise_le (h : Tiles ranges start stop) : ranges.Pairwise fun r t => r.2 ≤ t.1 := by
  induction h with
  | nil => exact .nil
  | cons _ _ hrest ih => exact List.pairwise_cons.2 ⟨fun _ ht => hrest.start_le_of_mem ht, ih⟩

theorem flatMap_wordsBetween (h : Tiles ranges start stop) :
    (ranges.flatMap fun range => wordsBetween range.1 range.2) = wordsBetween start stop := by
  induction h with
  | nil start => simp [wordsBetween]
  | @cons start middle stop rest haligned hle hrest ih =>
      rw [List.flatMap_cons, ih]
      cases hrest with
      | nil => simp [wordsBetween]
      | cons hmiddle hle' hrest =>
          have hstop := (Tiles.cons hmiddle hle' hrest).start_le_stop
          exact wordsBetween_append hle hstop (hmiddle.trans haligned.symm)

theorem take (h : Tiles ranges start stop) (count : Nat) :
    ∃ stop, Tiles (ranges.take count) start stop := by
  induction h generalizing count with
  | nil start => exact ⟨start, by simpa using Tiles.nil start⟩
  | @cons start middle stop rest haligned hle _ ih =>
      cases count with
      | zero => exact ⟨start, Tiles.nil start⟩
      | succ count =>
          obtain ⟨stop, htiles⟩ := ih count
          exact ⟨stop, Tiles.cons haligned hle htiles⟩

theorem start_of_head? {range : Address × Address} (h : Tiles ranges start stop)
    (hhead : ranges.head? = some range) : range.1 = start := by
  cases h with
  | nil => simp at hhead
  | cons =>
      obtain rfl := Option.some.inj hhead
      rfl

theorem stop_of_getLast? {range : Address × Address} (h : Tiles ranges start stop)
    (hlast : ranges.getLast? = some range) : range.2 = stop := by
  induction h with
  | nil => simp at hlast
  | @cons start middle stop rest _ _ hrest ih =>
      cases hrest with
      | nil =>
          obtain rfl := Option.some.inj hlast
          rfl
      | cons => exact ih (by rwa [List.getLast?_cons_cons] at hlast)

theorem aligned_of_mem {address : Address} (h : Tiles ranges start stop)
    (hmem : address ∈ wordsBetween start stop) : address.toNat % 4 = 0 := by
  obtain ⟨_, _, hmod⟩ := mem_wordsBetween.1 hmem
  cases h with
  | nil => simp [wordsBetween] at hmem
  | cons haligned => exact hmod.trans haligned

end Tiles

/-! ## Discovery -/

theorem le_saturatingAdd (a b : UInt32) : a ≤ saturatingAdd a b := by
  have ha := a.toNat_lt
  rw [UInt32.le_iff_toNat_le, saturatingAdd, UInt32.toNat_ofNat_of_lt']
  · rw [UInt32.size]
    omega
  · rw [UInt32.size]
    omega

/-- The ranges of ascending starts are a tiling from the first start on. -/
theorem tiles_ranges {lastStop : Address → Address} {start : Address} {starts : List Address}
    (hascending : (start :: starts).Pairwise (· < ·))
    (haligned : ∀ a ∈ start :: starts, a.toNat % 4 = 0)
    (hlast : ∀ a ∈ start :: starts, a ≤ lastStop a) :
    ∃ stop, Tiles (ranges lastStop (start :: starts)) start stop := by
  induction starts generalizing start with
  | nil =>
      exact ⟨lastStop start, .cons (haligned start List.mem_cons_self)
        (hlast start List.mem_cons_self) (.nil _)⟩
  | cons next rest ih =>
      rw [List.pairwise_cons] at hascending
      obtain ⟨stop, htiles⟩ := ih hascending.2 (fun a ha => haligned a (List.mem_cons_of_mem _ ha))
        (fun a ha => hlast a (List.mem_cons_of_mem _ ha))
      have hnext : start < next := hascending.1 next List.mem_cons_self
      exact ⟨stop, .cons (haligned start List.mem_cons_self) (UInt32.le_of_lt hnext) htiles⟩

namespace Image

variable {image : Image}

theorem hasStart_iff {address : Address} :
    image.hasStart address = true ↔
      image.base ≤ address ∧ address < image.limit ∧ address.toNat % 4 = 0 := by
  simp only [hasStart, Bool.and_eq_true, decide_eq_true_eq, mod_width_eq_zero_iff, and_assoc]

end Image

namespace Descriptor

variable (d : Descriptor) (image : Image) (entry : Address)

/-- Where a function stops that no other start bounds. -/
def lastStop (start : Address) : Address :=
  min (saturatingAdd start d.analysis.lastFunctionWindow) image.limit

/-- The ranges of all functions, the limit on their number aside. -/
def allRanges : List (Address × Address) :=
  ranges (d.lastStop image) (d.functionStarts image entry).toList

theorem discover_eq :
    d.discover image entry =
      ((d.allRanges image entry).take d.analysis.maxFunctions.toNat).map
        fun range => ⟨range.1, range.2, d.functionName range.1⟩ :=
  rfl

theorem hasStart_of_mem_functionStarts {start : Address}
    (h : start ∈ d.functionStarts image entry) : image.hasStart start = true :=
  (OrderedSet.mem_filter.1 h).2

theorem le_lastStop {start : Address} (h : image.hasStart start = true) :
    start ≤ d.lastStop image start :=
  Std.le_min_iff.2 ⟨le_saturatingAdd _ _, UInt32.le_of_lt (Image.hasStart_iff.1 h).2.1⟩

/-- The functions that are found tile a range of addresses that does not start below the image. -/
theorem tiles_discover :
    ∃ start stop, image.base ≤ start ∧
      Tiles ((d.discover image entry).map fun f => (f.start, f.stop)) start stop := by
  have hstarts : ∀ a ∈ (d.functionStarts image entry).toList, image.hasStart a = true :=
    fun a ha => d.hasStart_of_mem_functionStarts image entry ha
  have hascending := (d.functionStarts image entry).ascending
  have hranges : ((d.discover image entry).map fun f => (f.start, f.stop)) =
      (d.allRanges image entry).take d.analysis.maxFunctions.toNat := by
    simp [discover_eq, Function.comp_def]
  rw [hranges, allRanges]
  cases h : (d.functionStarts image entry).toList with
  | nil => exact ⟨image.base, image.base, UInt32.le_refl _, by simpa [ranges] using Tiles.nil _⟩
  | cons start rest =>
      rw [h] at hstarts hascending
      obtain ⟨stop, htiles⟩ := tiles_ranges hascending
        (fun a ha => (Image.hasStart_iff.1 (hstarts a ha)).2.2)
        (fun a ha => d.le_lastStop image (hstarts a ha))
      obtain ⟨stop, htiles⟩ := htiles.take d.analysis.maxFunctions.toNat
      exact ⟨start, stop, (Image.hasStart_iff.1 (hstarts start List.mem_cons_self)).1, htiles⟩

end Descriptor

end FirmwareLift
