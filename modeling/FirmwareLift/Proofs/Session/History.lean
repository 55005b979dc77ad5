import FirmwareLift.Proofs.Session.Operations

/-!
# Sessions forget their history

Of all that was done to a session, a run of all stages sees only the descriptor, the image that was
loaded last and the idioms that were registered.
-/

namespace FirmwareLift.Session

/-! ## What operations keep -/

/-- What a stage keeps of a session, whether it runs or fails. -/
structure Keeps (s next : Session) : Prop where
  descriptor : next.descriptor = s.descriptor
  idioms : next.idioms = s.idioms
  image : next.image = s.image
  unloaded : s.stage = .unloaded → next = s
  loaded : s.stage ≠ .unloaded → next.stage ≠ .unloaded

namespace Keeps

theorem refl (s : Session) : Keeps s s :=
  ⟨rfl, rfl, rfl, fun _ => rfl, id⟩

theorem trans {s t u : Session} (h : Keeps s t) (h' : Keeps t u) : Keeps s u where
  descriptor := h'.descriptor.trans h.descriptor
  idioms := h'.idioms.trans h.idioms
  image := h'.image.trans h.image
  unloaded hs := by
    have ht := h.unloaded hs
    subst ht
    exact h'.unloaded hs
  loaded hs := h'.loaded (h.loaded hs)

end Keeps

section

variable {α : Type} {s : Session} {needed : Stage} {outcome : α × Session}

theorem ne_unloaded_of_le {stage : Stage} (hneeded : Stage.loaded.order ≤ needed.order)
    (h : needed.order ≤ stage.order) : stage ≠ .unloaded := by
  rintro rfl
  exact absurd (Nat.le_trans hneeded h) (by decide)

theorem keeps_whenAt (hneeded : Stage.loaded.order ≤ needed.order)
    (hdescriptor : outcome.2.descriptor = s.descriptor) (hidioms : outcome.2.idioms = s.idioms)
    (himage : outcome.2.image = s.image)
    (hstage : s.stage ≠ .unloaded → outcome.2.stage ≠ .unloaded) :
    Keeps s (s.after (s.whenAt needed outcome)) := by
  refine after_whenAt (Keeps.refl s) fun h => ?_
  have hs : s.stage ≠ .unloaded := ne_unloaded_of_le hneeded h
  exact ⟨hdescriptor, hidioms, himage, fun hs' => absurd hs' hs, hstage⟩

end

variable (s : Session)

theorem keeps_withRoutines (found : Nat × List Routine) :
    Keeps s (s.after (s.whenAt .functionsAnalyzed (s.withRoutines found))) :=
  keeps_whenAt (by decide) rfl rfl rfl id

theorem keeps_detected : Keeps s.analyzed s.detected :=
  ((keeps_withRoutines _ _).trans (keeps_withRoutines _ _)).trans (keeps_withRoutines _ _)

theorem keeps_decompile : Keeps s (s.perform .decompile) := by
  by_cases h : s.stage = .unloaded
  · rw [perform_decompile_of_unloaded h]
    exact Keeps.refl s
  · rw [perform_decompile h]
    have hdetected := s.keeps_detected
    exact
      { descriptor := hdetected.descriptor
        idioms := hdetected.idioms
        image := hdetected.image
        unloaded := fun hs => absurd hs h
        loaded := fun _ => by simp [writePseudocode] }

theorem keeps_perform {operation : Operation} (h : operation.isStage) :
    Keeps s (s.perform operation) := by
  cases operation with
  | load bytes => cases h
  | register idiom => cases h
  | analyzeEntry =>
      refine keeps_whenAt (by decide) rfl rfl rfl fun hs => ?_
      cases hstage : s.stage <;> simp_all
  | discover => exact keeps_whenAt (by decide) rfl rfl rfl fun _ => by simp
  | analyze => exact keeps_whenAt (by decide) rfl rfl rfl fun _ => by simp
  | detectApis => exact s.keeps_withRoutines _
  | detectTasks => exact s.keeps_withRoutines _
  | detectHandlers => exact s.keeps_withRoutines _
  | decompile => exact s.keeps_decompile

/-! ## What a history comes to -/

/-- The image that was loaded last. -/
def lastImage? (operations : List Operation) : Option (Array UInt8) :=
  (operations.filterMap fun
    | .load bytes => some bytes
    | _ => none).getLast?

/-- The idioms that were registered, in order. -/
def registered (operations : List Operation) : List Idiom :=
  operations.filterMap fun
    | .register idiom => some idiom
    | _ => none

/-- What a session retains of the operations that led to it. -/
structure Retains (d : Descriptor) (operations : List Operation) (s : Session) : Prop where
  descriptor : s.descriptor = d
  idioms : s.idioms = (registered operations).foldl .register .common
  unloaded : lastImage? operations = none → s = { new d with idioms := s.idioms }
  loaded : ∀ bytes, lastImage? operations = some bytes →
    s.stage ≠ .unloaded ∧ s.image = ⟨d.flashBase, bytes⟩

variable {d : Descriptor} {operations : List Operation} {s}

theorem lastImage?_concat {operation : Operation} (h : operation.isStage) :
    lastImage? (operations ++ [operation]) = lastImage? operations := by
  cases operation <;> simp_all [lastImage?, Operation.isStage]

theorem registered_concat {operation : Operation} (h : operation.isStage) :
    registered (operations ++ [operation]) = registered operations := by
  cases operation <;> simp_all [registered, Operation.isStage]

theorem Retains.perform_stage (h : Retains d operations s) {operation : Operation}
    (hstage : operation.isStage) : Retains d (operations ++ [operation]) (s.perform operation) := by
  have hkeeps := s.keeps_perform hstage
  constructor
  · exact hkeeps.descriptor.trans h.descriptor
  · rw [hkeeps.idioms, registered_concat hstage, h.idioms]
  · intro hnone
    rw [lastImage?_concat hstage] at hnone
    have hs := h.unloaded hnone
    have hunloaded : s.stage = .unloaded := by
      rw [hs]
      rfl
    rw [hkeeps.unloaded hunloaded]
    exact hs
  · intro bytes hsome
    rw [lastImage?_concat hstage] at hsome
    obtain ⟨hloaded, himage⟩ := h.loaded bytes hsome
    exact ⟨hkeeps.loaded hloaded, hkeeps.image.trans himage⟩

theorem retains_new (d : Descriptor) : Retains d [] (new d) where
  descriptor := rfl
  idioms := rfl
  unloaded _ := rfl
  loaded _ hsome := by cases hsome

theorem retains_perform (h : Retains d operations s) (operation : Operation) :
    Retains d (operations ++ [operation]) (s.perform operation) := by
  cases operation with
  | load bytes =>
      exact
        { descriptor := h.descriptor
          idioms := by
            show s.idioms = _
            simpa [registered] using h.idioms
          unloaded := fun hnone => by simp [lastImage?] at hnone
          loaded := fun bytes' hsome => by
            obtain rfl : bytes = bytes' := by simpa [lastImage?] using hsome
            refine ⟨by simp [perform, load], ?_⟩
            rw [← h.descriptor]
            rfl }
  | register idiom =>
      exact
        { descriptor := h.descriptor
          idioms := by
            show s.idioms.register idiom = _
            rw [h.idioms]
            simp [registered]
          unloaded := fun hnone => by
            have hs := h.unloaded (by simpa [lastImage?] using hnone)
            show { s with idioms := s.idioms.register idiom } = _
            rw [hs]
            rfl
          loaded := fun bytes hsome => h.loaded bytes (by simpa [lastImage?] using hsome) }
  | _ => exact h.perform_stage rfl

theorem retains_run (h : Retains d operations s) (more : List Operation) :
    Retains d (operations ++ more) (s.run more) := by
  induction more generalizing operations s with
  | nil => simpa using h
  | cons operation more ih => simpa using ih (retains_perform h operation)

/-! ## A run of all stages -/

/-- A session with an image decompiles as if its image had just been loaded. -/
theorem decompile_eq_reloaded {bytes : Array UInt8} (h : s.stage ≠ .unloaded)
    (himage : s.image = ⟨s.descriptor.flashBase, bytes⟩) :
    s.decompile = (s.load bytes).decompile := by
  have hloaded : (s.load bytes).stage ≠ .unloaded := by simp [load]
  obtain ⟨descriptor, idioms, image, entry, routines, stage⟩ := s
  change image = ⟨descriptor.flashBase, bytes⟩ at himage
  subst himage
  rw [decompile_eq_ok h, decompile_eq_ok hloaded]
  rfl

theorem Retains.decompile_eq {others : List Operation} {t : Session}
    (hs : Retains d operations s) (ht : Retains d others t)
    (himage : lastImage? operations = lastImage? others)
    (hidioms : registered operations = registered others) :
    s.decompile = t.decompile ∧ s.perform .decompile = t.perform .decompile := by
  have hsame : s.idioms = t.idioms := by rw [hs.idioms, ht.idioms, hidioms]
  cases h : lastImage? operations with
  | none =>
      have hst : s = t := by
        calc s = { new d with idioms := s.idioms } := hs.unloaded h
          _ = { new d with idioms := t.idioms } := by rw [hsame]
          _ = t := (ht.unloaded (himage.symm.trans h)).symm
      rw [hst]
      exact ⟨rfl, rfl⟩
  | some bytes =>
      obtain ⟨hsloaded, hsimage⟩ := hs.loaded bytes h
      obtain ⟨htloaded, htimage⟩ := ht.loaded bytes (himage.symm.trans h)
      rw [← hs.descriptor] at hsimage
      rw [← ht.descriptor] at htimage
      have hload : s.load bytes = t.load bytes := by
        simp only [load, hs.descriptor, ht.descriptor, hsame]
      have hdecompile : s.decompile = t.decompile := by
        rw [decompile_eq_reloaded hsloaded hsimage, decompile_eq_reloaded htloaded htimage, hload]
      refine ⟨hdecompile, ?_⟩
      rw [decompile_eq_ok hsloaded, decompile_eq_ok htloaded] at hdecompile
      rw [perform_decompile hsloaded, perform_decompile htloaded]
      exact Except.ok.inj (congrArg Prod.snd hdecompile)

/--
Two histories that loaded the same image last and registered the same idioms, in the same order,
cannot be told apart by a run of all stages: it reports the same progress, returns the same listing
or the same error, and leaves the same session behind.
-/
theorem decompile_forgets_history {operations others : List Operation}
    (himage : lastImage? operations = lastImage? others)
    (hidioms : registered operations = registered others) (d : Descriptor) :
    ((new d).run operations).decompile.1 = ((new d).run others).decompile.1 ∧
      ((new d).run operations).decompile.2.map listing =
        ((new d).run others).decompile.2.map listing ∧
      ((new d).run operations).perform .decompile = ((new d).run others).perform .decompile := by
  have hs : Retains d operations ((new d).run operations) := retains_run (retains_new d) operations
  have ht : Retains d others ((new d).run others) := retains_run (retains_new d) others
  obtain ⟨hdecompile, hperform⟩ := hs.decompile_eq ht himage hidioms
  rw [hdecompile]
  exact ⟨rfl, rfl, hperform⟩

def pairOfNops : Idiom := ⟨["nop", "nop"], "// padding"⟩

/-- A history with failing stages, another image, and stages that are left behind. -/
def detour : List Operation :=
  [.analyze, .load #[0x36, 0x41, 0x00], .analyzeEntry, .discover, .register pairOfNops, .analyze,
    .detectApis, .decompile, .load #[0x36, 0x41, 0x00, 0x80, 0x00], .detectTasks, .analyzeEntry,
    .discover]

theorem decompile_forgets_detour :
    lastImage? detour = lastImage? [.register pairOfNops, .load #[0x36, 0x41, 0x00, 0x80, 0x00]] ∧
      registered detour =
        registered [.register pairOfNops, .load #[0x36, 0x41, 0x00, 0x80, 0x00]] ∧
      ((new .esp32).run detour).perform .decompile =
        ((new .esp32).run
          [.register pairOfNops, .load #[0x36, 0x41, 0x00, 0x80, 0x00]]).perform .decompile :=
  ⟨rfl, rfl, (decompile_forgets_history rfl rfl .esp32).2.2⟩

end FirmwareLift.Session
