import FirmwareLift.Proofs.Session.Ranges
import FirmwareLift.Proofs.Strings

/-!
# What a discovery finds

The options of the analysis may be as small as zero. A function is empty, and so does not hold its
own start, only if the window of the last function is; a string is empty only if the shortest length
of a string is zero.
-/

namespace FirmwareLift

namespace Descriptor

variable {d : Descriptor} {image : Image} {entry : Address}

/-- Only the function that no later start bounds can be empty, and only if its window is. -/
theorem start_lt_stop_or_eq (hsize : image.bytes.size < UInt32.size) {f : Bounds}
    (hf : f ∈ d.discover image entry) :
    f.start < f.stop ∨
      d.analysis.lastFunctionWindow = 0 ∧ f.stop = f.start ∧
        ∀ a ∈ d.starts image entry, a ≤ f.start := by
  obtain ⟨-, haligned, -, hbelow⟩ := (d.discovers_discover entry hsize).start_mem f hf
  rcases d.stop_of_mem_discover entry hsize hf with hleast | ⟨hlast, hstop⟩
  · exact .inl hleast.1.2
  · have hspace := f.start.toNat_lt
    rw [UInt32.size] at hstop
    by_cases hwindow : d.analysis.lastFunctionWindow = 0
    · refine .inr ⟨hwindow, UInt32.toNat_inj.1 ?_, hlast⟩
      rw [hwindow, UInt32.toNat_zero] at hstop
      omega
    · -- The last address is no start, since a start is aligned.
      have hwindow : d.analysis.lastFunctionWindow.toNat ≠ 0 := fun h =>
        hwindow (UInt32.toNat_inj.1 h)
      refine .inl (UInt32.lt_iff_toNat_lt.2 ?_)
      omega

end Descriptor

namespace Session

/-- What the functions and the strings of a session have to do with its image and its options. -/
structure Sound (s : Session) : Prop where
  functions : ∀ f ∈ s.routines, f.start < f.stop ∧ s.routineAt? f.start = some f ∨
    s.descriptor.analysis.lastFunctionWindow = 0 ∧ f.stop = f.start ∧
      ∀ a ∈ s.descriptor.starts s.image s.entry, a ≤ f.start
  nonempty : ∀ a, (a, "") ∈ s.strings → s.descriptor.analysis.minStringLength = 0
  characters : ∀ a text, (a, text) ∈ s.strings → text.toList.map Char.toNat =
    ((s.image.bytes.toList.drop (a - s.image.base).toNat).take text.length).map UInt8.toNat

variable {s : Session}

theorem Located.sound (h : s.Located) (hstage : Stage.functionsDiscovered.order ≤ s.stage.order)
    (hsize : s.image.bytes.size < UInt32.size) : s.Sound where
  functions f hf := by
    have hbounds := h.bounds hstage
    have hmem : f.bounds ∈ s.descriptor.discover s.image s.entry := by
      rw [← hbounds]
      exact List.mem_map_of_mem hf
    refine (Descriptor.start_lt_stop_or_eq hsize hmem).imp_left fun hlt => ⟨hlt, ?_⟩
    rw [(tiled_of_bounds hbounds).routineAt?_eq_some_iff]
    refine ⟨hf, ?_⟩
    have hlt : f.start < f.stop := hlt
    simp [Routine.contains, hlt]
  nonempty a ha := by
    have hlong := Image.le_length_of_mem_strings ha
    exact UInt64.toNat_inj.1 (Nat.le_zero.1 hlong)
  characters a text ha := Image.toNat_of_mem_strings hsize ha

/--
Whatever an image holds, its functions can be discovered, and with them its strings. None of them is
empty, unless the options ask for it.
-/
theorem discovery_sound (s : Session) {bytes : Array UInt8} (hsize : bytes.size < UInt32.size) :
    ∃ count next,
      (do
        let (_, s) ← (s.load bytes).analyzeEntry
        s.discover) = .ok (count, next) ∧
      next.descriptor = s.descriptor ∧ next.image = ⟨s.descriptor.flashBase, bytes⟩ ∧
      count = next.routines.length ∧ next.Sound := by
  have hloaded : (s.load bytes).stage ≠ .unloaded := by
    show Stage.loaded ≠ .unloaded
    decide
  refine ⟨_, (s.load bytes).discovered, ?_, rfl, rfl, rfl, ?_⟩
  · rw [analyzeEntry_eq_ok hloaded]
    exact discover_entered hloaded
  · exact (located_discovered _).sound (Nat.le_refl _) hsize

/-- Two prologues, of which the first calls the second, and a greeting and a short text as data. -/
def greeting : Array UInt8 :=
  #[0x36, 0x41, 0x00, 0x00, 0x25, 0x02, 0x00, 0x00, 0x0d, 0x00, 0x00, 0x00, 0x48, 0x69, 0x21, 0x00,
    0x36, 0x41, 0x00, 0x00, 0x0d, 0x00, 0x00, 0x00, 0x4f, 0x4b, 0x00, 0x00]

/-- A device whose last function takes two words, and whose strings have three characters or more. -/
def brief : Descriptor :=
  { Descriptor.esp32 with
    analysis := { maxFunctions := 2, lastFunctionWindow := 8, minStringLength := 3 } }

theorem discovery_greeting :
    greeting.size < UInt32.size ∧
      (let s := (new brief).run [.load greeting, .analyzeEntry, .discover]
      s.routines.map Routine.bounds =
          [⟨0x400d0000, 0x400d0010, "func_400d0000"⟩, ⟨0x400d0010, 0x400d0018, "func_400d0010"⟩] ∧
        s.strings = [(0x400d000c, "Hi!")]) ∧
      ∃ count next,
        (do
          let (_, s) ← ((new brief).load greeting).analyzeEntry
          s.discover) = .ok (count, next) ∧
        next.descriptor = brief ∧ next.image = ⟨brief.flashBase, greeting⟩ ∧
        count = next.routines.length ∧ next.Sound := by
  have hsize : greeting.size < UInt32.size := by decide
  exact ⟨hsize, by decide +kernel, discovery_sound (new brief) hsize⟩

/-- A letter and padding. -/
def letter : Array UInt8 := #[0x41, 0x00, 0x00, 0x00]

/-- A device whose options are as small as they may be. -/
def unbounded : Descriptor :=
  { Descriptor.esp32 with analysis := { lastFunctionWindow := 0, minStringLength := 0 } }

/-- The last function is empty and not found at its start, and empty strings are found. -/
theorem discovery_unbounded :
    Descriptor.parse "\x7b\"analysis\": \x7b\"last_function_window\": 0, \"min_string_length\": 0\x7d\x7d" =
        .ok unbounded ∧
      let s := (new unbounded).run [.load letter, .analyzeEntry, .discover]
      (∃ f ∈ s.routines, f.stop = f.start ∧ s.routineAt? f.start = none) ∧
        (0x400d0000, "") ∈ s.strings := by
  decide +kernel

end Session

end FirmwareLift
