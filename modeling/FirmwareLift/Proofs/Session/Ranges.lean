import FirmwareLift.Descriptor.Read
import FirmwareLift.Proofs.Discovery
import FirmwareLift.Proofs.Session.Coherence
import FirmwareLift.Proofs.Session.Located

/-!
# The ranges of a session

Whatever is done to a session, the ranges of its routines follow each other as discovery found them.
So an address belongs to one routine at most, and that is the one which is looked up.
-/

namespace FirmwareLift

theorem Descriptor.flashBase_mod_of_parse {text : String} {d : Descriptor}
    (h : parse text = .ok d) : d.flashBase.toNat % 4 = 0 := by
  have haligned : d.flashBase % 4 = 0 := by
    rw [parse] at h
    split at h
    · cases h
    · rw [read] at h
      split at h
      · cases h
      · rw [validate] at h
        split at h
        · cases h
        · split at h
          · cases h
          · cases h
            exact not_not.1 ‹_›
  rw [← UInt32.toNat_inj, UInt32.toNat_mod] at haligned
  exact haligned

namespace Session

def Tiled (s : Session) : Prop :=
  ∃ start stop, Tiles (s.routines.map fun f => (f.start, f.stop)) start stop

variable {s : Session}

theorem tiled_of_nil (h : s.routines = []) : s.Tiled :=
  ⟨0, 0, by simpa [h] using Tiles.nil 0⟩

theorem tiled_of_bounds {image : Image} {entry : Address} {d : Descriptor}
    (h : s.routines.map Routine.bounds = d.discover image entry) : s.Tiled := by
  obtain ⟨start, stop, -, htiles⟩ := d.tiles_discover image entry
  refine ⟨start, stop, ?_⟩
  rw [← h, List.map_map] at htiles
  exact htiles

/-- Routines are tiled as they are found, and there are none before. -/
theorem Coherent.tiled (h : s.Coherent) (hlocated : s.Located) : s.Tiled := by
  by_cases hstage : s.stage.order < Stage.functionsDiscovered.order
  · exact tiled_of_nil (h.early hstage)
  · exact tiled_of_bounds (hlocated.bounds (Nat.not_lt.1 hstage))

/-! ## The routine at an address -/

theorem find?_eq_some_iff_of_pairwise {α : Type} {p : α → Bool} {l : List α} {a : α}
    (h : l.Pairwise fun x y => ¬ (p x = true ∧ p y = true)) :
    l.find? p = some a ↔ a ∈ l ∧ p a = true := by
  induction l with
  | nil => simp
  | cons b rest ih =>
      rw [List.pairwise_cons] at h
      by_cases hb : p b
      · rw [List.find?_cons_of_pos hb, List.mem_cons, Option.some.injEq]
        constructor
        · rintro rfl
          exact ⟨.inl rfl, hb⟩
        · rintro ⟨rfl | ha, hp⟩
          · rfl
          · exact absurd ⟨hb, hp⟩ (h.1 a ha)
      · rw [List.find?_cons_of_neg hb, ih h.2, List.mem_cons]
        constructor
        · exact fun ⟨ha, hp⟩ => ⟨.inr ha, hp⟩
        · rintro ⟨rfl | ha, hp⟩
          · exact absurd hp hb
          · exact ⟨ha, hp⟩

theorem Tiled.routineAt?_eq_some_iff (h : s.Tiled) {a : Address} {f : Routine} :
    s.routineAt? a = some f ↔ f ∈ s.routines ∧ f.contains a = true := by
  obtain ⟨start, stop, htiles⟩ := h
  apply find?_eq_some_iff_of_pairwise
  refine (List.pairwise_map.1 htiles.pairwise_le).imp fun {f g} hle ⟨hf, hg⟩ => ?_
  simp only [Routine.contains, Bool.and_eq_true, decide_eq_true_eq] at hf hg
  exact UInt32.lt_irrefl _ (UInt32.lt_of_lt_of_le hf.2 (UInt32.le_trans hle hg.1))

theorem tiled_run (d : Descriptor) (operations : List Operation) :
    ((new d).run operations).Tiled :=
  ((coherent_new d).run operations).tiled (located_run d operations)

/--
Discovery of the functions of an image under a descriptor that was read. The starts hold the target
of every call in the image, also if the call shows a name in its place.
-/
theorem discover_correct {text : String} {d : Descriptor} (hd : Descriptor.parse text = .ok d)
    {image : Image} (hbase : image.base = d.flashBase) (hsize : image.bytes.size < UInt32.size)
    (entry : Address) :
    d.Discovers image entry (d.discover image entry) ∧
      (∀ a word, (a, word) ∈ image.words → word.field 0 4 = 5 → word.field 4 4 < 4 →
        image.base ≤ word.callTarget a →
        (word.callTarget a).toNat < image.base.toNat + image.bytes.size →
          word.callTarget a ∈ d.starts image entry) ∧
      (∀ more, d.analysis.maxFunctions ≤ more →
        d.discover image entry <+:
          { d with analysis := { d.analysis with maxFunctions := more } }.discover image entry) ∧
      ∀ operations a f, ((new d).run operations).routineAt? a = some f ↔
        f ∈ ((new d).run operations).routines ∧ f.contains a = true := by
  have haligned : image.base.toNat % 4 = 0 := hbase ▸ Descriptor.flashBase_mod_of_parse hd
  refine ⟨d.discovers_discover entry hsize, ?_, fun more hmore => d.discover_mono entry hmore,
    fun operations a f => (tiled_run d operations).routineAt?_eq_some_iff⟩
  intro a word hword hformat hwindow hlow hhigh
  exact ⟨Descriptor.candidate_callTarget haligned hword hformat hwindow,
    Descriptor.toNat_callTarget_mod haligned hword, hlow, hhigh⟩

/-- A prologue, a return, padding, and behind it a call back to the prologue. -/
def paddedReturn : Image where
  base := 0x400d0000
  bytes := #[0x36, 0x41, 0x00, 0x00, 0x0d, 0x00, 0x00, 0x00,
    0x00, 0x00, 0x00, 0x00, 0x05, 0xfc, 0xff, 0xff]

theorem discover_paddedReturn :
    Descriptor.parse "\x7b\x7d" = .ok .esp32 ∧
      paddedReturn.base = Descriptor.esp32.flashBase ∧ paddedReturn.bytes.size < UInt32.size ∧
      Descriptor.esp32.Discovers paddedReturn 0x400d0004
        (Descriptor.esp32.discover paddedReturn 0x400d0004) := by
  have hparse : Descriptor.parse "\x7b\x7d" = .ok .esp32 := by decide +kernel
  have hsize : paddedReturn.bytes.size < UInt32.size := by decide
  exact ⟨hparse, rfl, hsize, (discover_correct hparse rfl hsize 0x400d0004).1⟩

end Session

end FirmwareLift
