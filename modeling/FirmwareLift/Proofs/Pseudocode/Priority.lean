import FirmwareLift.Proofs.Pseudocode.Idiom

/-!
# Priority of idioms

Of the idioms of a library, the first one that has a statement for a window gives the match, and the
shapes count only where there is none. So idioms that are registered later take nothing away from
those before them.
-/

namespace FirmwareLift

variable {library : IdiomLibrary} {idiom : Idiom} {window : List Instruction} {found : Match}

/-- The mnemonics of the idiom start the window, and its template resolves there. -/
structure Idiom.Yields (idiom : Idiom) (window : List Instruction) (found : Match) : Prop where
  nonempty : idiom.mnemonics ≠ []
  mnemonics : idiom.mnemonics <+: window.map (·.mnemonic)
  statement : Template.Resolves window idiom.replacement.toList found.statement.toList
  consumed : found.consumed = idiom.mnemonics.length

theorem Idiom.match?_eq_some_iff : idiom.match? window = some found ↔ idiom.Yields window found := by
  constructor
  · intro h
    obtain ⟨hfits, hconsumed, template, hparse, hfill⟩ := match?_eq_some h
    obtain ⟨hne, hprefix⟩ := fits_iff.1 hfits
    exact ⟨hne, hprefix, Template.resolves_of_fill? hparse hfill, hconsumed⟩
  · rintro ⟨hne, hprefix, hstatement, hconsumed⟩
    obtain ⟨template, hparse, hfill⟩ := hstatement.exists_fill?
    have hfits : idiom.fits window = true := fits_iff.2 ⟨hne, hprefix⟩
    rw [String.ofList_toList] at hfill
    simp [match?, hfits, hparse, hfill, ← hconsumed, length]

theorem Idiom.match?_eq_none_iff :
    idiom.match? window = none ↔ ∀ found, ¬ idiom.Yields window found := by
  simp only [Option.eq_none_iff_forall_ne_some, ne_eq, match?_eq_some_iff]

namespace IdiomLibrary

/-- What a library gives for a window, and which of its idioms or of the shapes gives it. -/
inductive Selects (library : IdiomLibrary) (window : List Instruction) (found : Match) : Prop where
  | idiom {before after : IdiomLibrary} {idiom : Idiom} :
      library = before ++ idiom :: after →
        (∀ earlier ∈ before, ∀ other, ¬ earlier.Yields window other) →
          idiom.Yields window found → Selects library window found
  | shape : (∀ idiom ∈ library, ∀ other, ¬ idiom.Yields window other) →
      Shape.match? window = some found → Selects library window found

theorem selects_iff : library.match? window = some found ↔ library.Selects window found := by
  rw [match?, Option.or_eq_some_iff]
  constructor
  · rintro (h | ⟨hnone, h⟩)
    · obtain ⟨before, idiom, after, hlibrary, hidiom, hbefore⟩ := List.findSome?_eq_some_iff.1 h
      exact .idiom hlibrary (fun earlier hmem => Idiom.match?_eq_none_iff.1 (hbefore earlier hmem))
        (Idiom.match?_eq_some_iff.1 hidiom)
    · refine .shape (fun idiom hmem => ?_) h
      exact Idiom.match?_eq_none_iff.1 (List.findSome?_eq_none_iff.1 hnone idiom hmem)
  · rintro (⟨hlibrary, hbefore, hidiom⟩ | ⟨hnone, h⟩)
    · left
      exact List.findSome?_eq_some_iff.2 ⟨_, _, _, hlibrary, Idiom.match?_eq_some_iff.2 hidiom,
        fun earlier hmem => Idiom.match?_eq_none_iff.2 (hbefore earlier hmem)⟩
    · right
      exact ⟨List.findSome?_eq_none_iff.2 fun idiom hmem =>
        Idiom.match?_eq_none_iff.2 (hnone idiom hmem), h⟩

theorem foldl_register (library : IdiomLibrary) (more : List Idiom) :
    more.foldl register library = library ++ more := by
  induction more generalizing library with
  | nil => simp
  | cons idiom more ih => rw [List.foldl_cons, ih, register, List.append_assoc, List.singleton_append]

/-- An idiom that matches hides the shapes and what is registered behind it. -/
theorem match?_append (hidiom : ∃ idiom ∈ library, ∃ found, idiom.Yields window found)
    (more : IdiomLibrary) : match? (library ++ more) window = library.match? window := by
  obtain ⟨idiom, hmem, found, hyields⟩ := hidiom
  have hsome : (library.findSome? (Idiom.match? window)).isSome = true :=
    List.findSome?_isSome_iff.2 ⟨idiom, hmem, by rw [Idiom.match?_eq_some_iff.2 hyields]; rfl⟩
  obtain ⟨first, hfirst⟩ := Option.isSome_iff_exists.1 hsome
  simp only [match?, List.findSome?_append, hfirst, Option.some_or]

/--
The first idiom whose mnemonics start a window and whose template resolves gives its match, and
where there is none a shape does. Idioms that are registered later change no match of an idiom.
-/
theorem match_by_priority (library : IdiomLibrary) (window : List Instruction) :
    (∀ found, library.match? window = some found ↔ library.Selects window found) ∧
      (∀ text statement,
        ((Template.parse? text).bind fun template => template.fill? window) = some statement ↔
          Template.Resolves window text statement.toList) ∧
      ∀ more : List Idiom, (∃ idiom ∈ library, ∃ found, idiom.Yields window found) →
        (more.foldl register library).match? window = library.match? window := by
  refine ⟨fun found => selects_iff, fun text statement => Template.fill?_parse?_iff,
    fun more hidiom => ?_⟩
  rw [foldl_register, match?_append hidiom]

/-- Two idioms for a store, the first of which asks for an operand that stores do not have. -/
def stores : IdiomLibrary :=
  [⟨["s32i"], "put(\x7b0.3\x7d);"⟩, ⟨["s32i"], "put(\x7b0.0\x7d, \x7b+0.01\x7d.\x7b0.2\x7d);"⟩]

/-- A store whose operands look like references. -/
def bracedStore : Instruction where
  address := 0x400d0000
  word := 0
  mnemonic := "s32i"
  operands := ["\x7b0.1\x7d", "a3", "\x7b"]

theorem stores_by_priority :
    (∃ idiom ∈ stores, ∃ found, idiom.Yields [bracedStore] found) ∧
      stores.Selects [bracedStore] ⟨"put(\x7b0.1\x7d, a3.\x7b);", 1⟩ ∧
      IdiomLibrary.match? ([⟨["s32i"], "skip;"⟩].foldl register stores) [bracedStore] =
        stores.match? [bracedStore] := by
  obtain ⟨hselects, -, hlater⟩ := match_by_priority stores [bracedStore]
  have hidiom : ∃ idiom ∈ stores, ∃ found, idiom.Yields [bracedStore] found := by
    refine ⟨stores[1], List.getElem_mem _, ⟨"put(\x7b0.1\x7d, a3.\x7b);", 1⟩, ?_⟩
    exact Idiom.match?_eq_some_iff.1 (by decide +kernel)
  exact ⟨hidiom, (hselects _).1 (by decide +kernel), hlater _ hidiom⟩

end IdiomLibrary

end FirmwareLift
