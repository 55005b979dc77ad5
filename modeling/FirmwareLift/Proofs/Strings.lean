import FirmwareLift.Image
import Mathlib.Data.List.Infix

/-!
# Strings of an image

The strings that are found in an image are runs of printable bytes, no shorter than asked for, and
stand at the addresses they are found at.
-/

namespace FirmwareLift

/-- The code of a tab, or one between the codes of the blank and the tilde. -/
def Printable (byte : UInt8) : Prop :=
  byte.toNat = 9 ∨ 32 ≤ byte.toNat ∧ byte.toNat ≤ 126

theorem isPrintable_iff {byte : UInt8} : isPrintable byte = true ↔ Printable byte := by
  have htab : byte = 0x09 ↔ byte.toNat = 9 := UInt8.toNat_inj.symm
  have hblank : 0x20 ≤ byte ↔ 32 ≤ byte.toNat := UInt8.le_iff_toNat_le
  have htilde : byte < 0x7f ↔ byte.toNat ≤ 126 := UInt8.lt_iff_toNat_lt.trans Nat.lt_succ_iff
  simp only [isPrintable, Printable, Bool.or_eq_true, Bool.and_eq_true, decide_eq_true_eq, htab,
    hblank, htilde]

/-- A run of printable bytes, long enough, that stands at an offset of `data`. -/
structure IsRun (data : List UInt8) (minLength offset : Nat) (run : List UInt8) : Prop where
  long : minLength ≤ run.length
  printable : ∀ byte ∈ run, Printable byte
  placed : run <+: data.drop offset

/-- A run that is not part of a longer one: no printable byte stands next to it. -/
structure IsMaximalRun (data : List UInt8) (minLength offset : Nat) (run : List UInt8) : Prop
    extends IsRun data minLength offset run where
  before : ∀ index byte, index + 1 = offset → data[index]? = some byte → ¬Printable byte
  behind : ∀ byte, data[offset + run.length]? = some byte → ¬Printable byte

section

variable {data run run' : List UInt8} {minLength minLength' offset offset' : Nat}

theorem IsRun.getElem?_eq (h : IsRun data minLength offset run) {index : Nat}
    (hindex : index < run.length) : data[offset + index]? = some run[index] := by
  obtain ⟨rest, hrest⟩ := h.placed
  rw [← List.getElem?_drop, ← hrest, List.getElem?_append_left hindex,
    List.getElem?_eq_getElem hindex]

theorem IsRun.add_length_le (h : IsRun data minLength offset run) (hmin : 1 ≤ minLength) :
    offset + run.length ≤ data.length := by
  have hlong := h.long
  have hplaced := h.placed.length_le
  rw [List.length_drop] at hplaced
  omega

/-- A maximal run is as long as any run at its offset. -/
theorem IsMaximalRun.length_le (h : IsMaximalRun data minLength offset run)
    (h' : IsRun data minLength' offset run') : run'.length ≤ run.length := by
  by_contra hlt
  have hbyte := h'.getElem?_eq (Nat.lt_of_not_le hlt)
  exact h.behind _ hbyte (h'.printable _ (List.getElem_mem _))

/-- Maximal runs that overlap are the same run. -/
theorem IsMaximalRun.eq_of_overlap (h : IsMaximalRun data minLength offset run)
    (h' : IsMaximalRun data minLength' offset' run') (hle : offset ≤ offset')
    (hlt : offset' < offset + run.length) : offset = offset' ∧ run = run' := by
  have hoffset : offset = offset' := by
    by_contra hne
    -- The byte in front of the later run is one of the earlier run.
    have hindex : offset' - 1 - offset < run.length := by omega
    have hbyte := h.getElem?_eq hindex
    exact h'.before _ _ (by omega) hbyte (h.printable _ (List.getElem_mem hindex))
  subst hoffset
  have hlength : run.length = run'.length :=
    Nat.le_antisymm (h'.length_le h.toIsRun) (h.length_le h'.toIsRun)
  refine ⟨rfl, ?_⟩
  rw [List.prefix_iff_eq_take.1 h.placed, List.prefix_iff_eq_take.1 h'.placed, hlength]

end

/-! ## The scan -/

/--
A state of the scan: `before` and the current run, in reverse, have been read. The run consists of
printable bytes, and the byte in front of it is not printable.
-/
structure Scanned (data before current rest : List UInt8) (start : Nat) : Prop where
  read : data = before ++ (current.reverse ++ rest)
  start : current ≠ [] → start = before.length
  printable : ∀ byte ∈ current, Printable byte
  separated : ∀ byte ∈ before.getLast?, ¬Printable byte

section

variable {data before current rest run : List UInt8} {byte : UInt8} {minLength offset start : Nat}

theorem scanned_start (data : List UInt8) : Scanned data [] [] data 0 :=
  ⟨rfl, fun _ => rfl, by simp, by simp⟩

namespace Scanned

/-- The current run goes on, or starts here. -/
theorem extend (h : Scanned data before current (byte :: rest) start)
    (hbyte : Printable byte) :
    Scanned data before (byte :: current) rest
      (if current.isEmpty then before.length + current.length else start) where
  read := by
    rw [h.read, List.reverse_cons, List.append_assoc, List.singleton_append]
  start _ := by
    cases current with
    | nil => rfl
    | cons last current => exact h.start (List.cons_ne_nil _ _)
  printable := List.forall_mem_cons.2 ⟨hbyte, h.printable⟩
  separated := h.separated

/-- The current run is over, and the byte behind it has been read, too. -/
theorem interrupt (h : Scanned data before current (byte :: rest) start)
    (hbyte : ¬Printable byte) :
    Scanned data (before ++ (current.reverse ++ [byte])) [] rest start where
  read := by
    rw [h.read]
    simp
  start hne := absurd rfl hne
  printable := by simp
  separated := by
    rw [← List.append_assoc, List.getLast?_concat]
    rintro _ ⟨⟩
    exact hbyte

theorem length_interrupted (before current : List UInt8) (byte : UInt8) :
    before.length + current.length + 1 =
      (before ++ (current.reverse ++ [byte])).length + ([] : List UInt8).length := by
  simp [Nat.add_assoc]

theorem isMaximalRun (h : Scanned data before current rest start)
    (hrest : ∀ byte ∈ rest.head?, ¬Printable byte) :
    IsMaximalRun data 0 before.length current.reverse where
  long := Nat.zero_le _
  printable byte hbyte := h.printable byte (List.mem_reverse.1 hbyte)
  placed := by
    rw [h.read, List.drop_left]
    exact List.prefix_append _ _
  before index byte hindex hbyte := by
    rw [h.read, List.getElem?_append_left (by omega)] at hbyte
    refine h.separated byte ?_
    rw [List.getLast?_eq_getElem?, ← hindex]
    exact hbyte
  behind byte hbyte := by
    rw [h.read, List.getElem?_append_right (Nat.le_add_right _ _), Nat.add_sub_cancel_left,
      List.getElem?_append_right (Nat.le_refl _), Nat.sub_self, ← List.head?_eq_getElem?] at hbyte
    exact hrest byte hbyte

end Scanned

theorem Scanned.ne_of_isRun (h : Scanned data before current (byte :: rest) start)
    (hbyte : ¬Printable byte) (hrun : IsRun data minLength offset run)
    (hmin : 1 ≤ minLength) : offset ≠ before.length + current.length := by
  rintro rfl
  have hpositive : 0 < run.length := Nat.lt_of_lt_of_le hmin hrun.long
  have hfirst := hrun.getElem?_eq hpositive
  have hread : data[before.length + current.length]? = some byte := by
    simp [h.read]
  have hprintable := hrun.printable _ (List.getElem_mem hpositive)
  rw [Nat.add_zero, hread] at hfirst
  rw [← Option.some.inj hfirst] at hprintable
  exact hbyte hprintable

theorem isRun_of_mem_reportRun (h : Scanned data before current rest start)
    (hrun : (offset, run) ∈ reportRun minLength start current.reverse) :
    IsRun data minLength offset run := by
  rw [reportRun] at hrun
  split at hrun
  · next hlong =>
    obtain ⟨rfl, rfl⟩ := Prod.mk.inj (List.mem_singleton.1 hrun)
    refine ⟨hlong, fun byte hbyte => h.printable byte (List.mem_reverse.1 hbyte), ?_⟩
    -- An empty run stands anywhere, and `offset` says nothing about it.
    by_cases hempty : current = []
    · rw [hempty]
      exact List.nil_prefix
    · rw [h.start hempty, h.read, List.drop_left]
      exact List.prefix_append _ _
  · cases hrun

theorem isRun_of_mem_printableRuns (h : Scanned data before current rest start)
    (hrun : (offset, run) ∈
      printableRuns minLength start current (before.length + current.length) rest) :
    IsRun data minLength offset run := by
  induction rest generalizing before current start with
  | nil => exact isRun_of_mem_reportRun h hrun
  | cons byte rest ih =>
      rw [printableRuns] at hrun
      split at hrun
      · next hprintable => exact ih (h.extend (isPrintable_iff.1 hprintable)) hrun
      · next hprintable =>
        rcases List.mem_append.1 hrun with hrun | hrun
        · exact isRun_of_mem_reportRun h hrun
        · rw [Scanned.length_interrupted] at hrun
          exact ih (h.interrupt (mt isPrintable_iff.2 hprintable)) hrun

/-- What is reported at the end of a run is the maximal run that starts there. -/
theorem mem_reportRun_iff (h : Scanned data before current rest start) (hmin : 1 ≤ minLength)
    (hrest : ∀ byte ∈ rest.head?, ¬Printable byte) :
    (offset, run) ∈ reportRun minLength start current.reverse ↔
      IsMaximalRun data minLength offset run ∧
        before.length ≤ offset ∧ offset < before.length + current.length := by
  have hmaximal := h.isMaximalRun hrest
  rw [reportRun]
  constructor
  · intro hrun
    split at hrun
    · next hlong =>
      obtain ⟨rfl, rfl⟩ := Prod.mk.inj (List.mem_singleton.1 hrun)
      rw [List.length_reverse] at hlong
      have hne : current ≠ [] := List.ne_nil_of_length_pos (by omega)
      rw [h.start hne]
      exact ⟨{ hmaximal with long := by rwa [List.length_reverse] }, Nat.le_refl _, by omega⟩
    · cases hrun
  · rintro ⟨hrun, hle, hlt⟩
    obtain ⟨rfl, rfl⟩ := hmaximal.eq_of_overlap hrun hle (by rwa [List.length_reverse])
    have hne : current ≠ [] := List.ne_nil_of_length_pos (by omega)
    rw [if_pos hrun.long, h.start hne]
    exact List.mem_singleton_self _

/-- The rest of a scan reports the maximal runs that start at the current one or behind it. -/
theorem mem_printableRuns_iff (h : Scanned data before current rest start)
    (hmin : 1 ≤ minLength) :
    (offset, run) ∈ printableRuns minLength start current (before.length + current.length) rest ↔
      IsMaximalRun data minLength offset run ∧ before.length ≤ offset := by
  induction rest generalizing before current start with
  | nil =>
      rw [printableRuns, mem_reportRun_iff h hmin (by simp)]
      refine and_congr_right fun hrun => and_iff_left_of_imp fun _ => ?_
      have hend := hrun.add_length_le hmin
      have hlong := hrun.long
      have hdata : data.length = before.length + current.length := by simp [h.read]
      omega
  | cons byte rest ih =>
      rw [printableRuns]
      split
      · next hprintable => exact ih (h.extend (isPrintable_iff.1 hprintable))
      · next hprintable =>
        have hbyte : ¬Printable byte := mt isPrintable_iff.2 hprintable
        rw [List.mem_append, mem_reportRun_iff h hmin (by simpa using hbyte),
          Scanned.length_interrupted, ih (h.interrupt hbyte), ← and_or_left]
        refine and_congr_right fun hrun => ?_
        -- No run starts at the byte that is not printable.
        have hne := h.ne_of_isRun hbyte hrun.toIsRun hmin
        have hlength := Scanned.length_interrupted before current byte
        rw [List.length_nil, Nat.add_zero] at hlength
        omega

theorem pairwise_printableRuns (h : Scanned data before current rest start)
    (hmin : 1 ≤ minLength) :
    (printableRuns minLength start current (before.length + current.length) rest).Pairwise
      fun r s => r.1 < s.1 := by
  have hsingle : ∀ start run,
      (reportRun minLength start run).Pairwise fun r s => r.1 < s.1 := by
    intro start run
    rw [reportRun]
    split <;> simp
  induction rest generalizing before current start with
  | nil => exact hsingle _ _
  | cons byte rest ih =>
      rw [printableRuns]
      split
      · next hprintable => exact ih (h.extend (isPrintable_iff.1 hprintable))
      · next hprintable =>
        have hbyte : ¬Printable byte := mt isPrintable_iff.2 hprintable
        have hnext := h.interrupt hbyte
        rw [Scanned.length_interrupted]
        refine List.pairwise_append.2 ⟨hsingle _ _, ih hnext, fun r hr s hs => ?_⟩
        -- The run at hand ends in front of the byte, and the others start behind it.
        obtain ⟨-, -, hr⟩ := (mem_reportRun_iff h hmin (by simpa using hbyte)).1 hr
        obtain ⟨-, hs⟩ := (mem_printableRuns_iff hnext hmin).1 hs
        have hlength := Scanned.length_interrupted before current byte
        rw [List.length_nil, Nat.add_zero] at hlength
        omega

end

theorem length_asciiText (run : List UInt8) : (asciiText run).length = run.length := by
  rw [asciiText, String.length_ofList, List.length_map]

theorem toNat_asciiText (run : List UInt8) :
    (asciiText run).toList.map Char.toNat = run.map UInt8.toNat := by
  rw [asciiText, String.toList_ofList, List.map_map]
  refine List.map_congr_left fun byte _ => ?_
  have hvalid : byte.toNat.isValidChar := .inl (Nat.lt_trans byte.toNat_lt (by decide))
  show (Char.ofNat byte.toNat).toNat = byte.toNat
  rw [Char.ofNat, dif_pos hvalid]
  rfl

namespace Image

variable {image : Image} {minLength : Nat} {a : Address} {text : String}

theorem exists_run_of_mem_strings (h : (a, text) ∈ image.strings minLength) :
    ∃ offset run, a = image.base + UInt32.ofNat offset ∧ text = asciiText run ∧
      IsRun image.bytes.toList minLength offset run := by
  obtain ⟨⟨offset, run⟩, hrun, heq⟩ := List.mem_map.1 h
  obtain ⟨rfl, rfl⟩ := Prod.mk.inj heq
  exact ⟨offset, run, rfl, rfl, isRun_of_mem_printableRuns (scanned_start _) hrun⟩

theorem le_length_of_mem_strings (h : (a, text) ∈ image.strings minLength) :
    minLength ≤ text.length := by
  obtain ⟨offset, run, -, rfl, hrun⟩ := exists_run_of_mem_strings h
  rw [length_asciiText]
  exact hrun.long

/-- The characters of a string that is found are the bytes of the image from its address on. -/
theorem toNat_of_mem_strings (hsize : image.bytes.size < UInt32.size)
    (h : (a, text) ∈ image.strings minLength) :
    text.toList.map Char.toNat =
      ((image.bytes.toList.drop (a - image.base).toNat).take text.length).map UInt8.toNat := by
  obtain ⟨offset, run, rfl, rfl, hrun⟩ := exists_run_of_mem_strings h
  rw [toNat_asciiText, length_asciiText]
  by_cases hempty : run = []
  · rw [hempty]
    rfl
  · have hoffset : offset < image.bytes.size := by
      by_contra hle
      have hplaced := hrun.placed
      rw [List.drop_eq_nil_of_le (by simpa using hle)] at hplaced
      exact hempty (List.prefix_nil.1 hplaced)
    have haddress : (image.base + UInt32.ofNat offset - image.base).toNat = offset := by
      rw [UInt32.add_comm, UInt32.add_sub_cancel,
        UInt32.toNat_ofNat_of_lt' (Nat.lt_trans hoffset hsize)]
    rw [haddress, ← List.prefix_iff_eq_take.1 hrun.placed]

/--
The strings are the given runs, at their addresses modulo 2^32 and with their bytes as characters. In
ascending order, these are all the maximal runs that are long enough, and nothing else.
-/
structure ReportsRuns (image : Image) (minLength : Nat) (runs : List (Nat × List UInt8)) : Prop where
  strings : image.strings minLength =
    runs.map fun r => (image.base + UInt32.ofNat r.1, asciiText r.2)
  text : ∀ r ∈ runs, (asciiText r.2).toList.map Char.toNat = r.2.map UInt8.toNat
  ascending : runs.Pairwise fun r s => r.1 < s.1
  maximal : ∀ offset run, (offset, run) ∈ runs ↔
    IsMaximalRun image.bytes.toList minLength offset run

theorem strings_maximal (image : Image) {minLength : Nat} (hmin : 1 ≤ minLength) :
    ∃ runs, image.ReportsRuns minLength runs := by
  have hstart := scanned_start image.bytes.toList
  refine ⟨printableRuns minLength 0 [] 0 image.bytes.toList, rfl, fun r _ => toNat_asciiText r.2,
    pairwise_printableRuns hstart hmin, fun offset run => ?_⟩
  exact (mem_printableRuns_iff hstart hmin).trans (and_iff_left (Nat.zero_le offset))

/-- Two runs that a separator parts, a run that is too short, and a run that ends the image. -/
def letters : Image where
  base := 0xfffffffe
  bytes := #[0x41, 0x09, 0x42, 0x00, 0x43, 0x44, 0x0a, 0x45, 0x7f, 0x46, 0x7e]

theorem letters_maximal : 1 ≤ 2 ∧ ∃ runs, letters.ReportsRuns 2 runs :=
  ⟨by decide, strings_maximal letters (by decide)⟩

/-- The addresses of the later runs pass the top of the address space. -/
example : letters.strings 2 = [(0xfffffffe, "A\tB"), (0x00000002, "CD"), (0x00000007, "F~")] := by
  decide +kernel

end Image

end FirmwareLift
