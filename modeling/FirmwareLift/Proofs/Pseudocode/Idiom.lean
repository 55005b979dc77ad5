import FirmwareLift.Idiom.Library
import FirmwareLift.Proofs.Grammar
import Mathlib.Data.Option.Basic

/-!
# Idioms that match

Which templates give a statement over a window, what a match of a registered idiom consists of, and
what its statement looks like.
-/

namespace FirmwareLift

/-! ## Templates

A template gives a statement where every brace is closed and every reference between braces names an
operand of the window, which takes the place of the reference. -/

namespace Template

open Text.Numeral (IsUnsigned)

variable {window : List Instruction} {text front inner back out : List Char} {c : Char}
  {operand : Operand} {statement : String}

/-! ## Splitting -/

theorem splitFirst?_append (h : c ∉ front) (back : List Char) :
    splitFirst? c (front ++ c :: back) = some (front, back) := by
  induction front with
  | nil => simp [splitFirst?]
  | cons d front ih =>
      have hd : d ≠ c := (List.ne_of_not_mem_cons h).symm
      simp [splitFirst?, hd, ih (List.not_mem_of_not_mem_cons h)]

theorem splitFirst?_eq_none_iff : splitFirst? c text = none ↔ c ∉ text := by
  induction text with
  | nil => simp [splitFirst?]
  | cons d rest ih =>
      by_cases hd : d = c
      · simp [splitFirst?, hd]
      · simp [splitFirst?, hd, ih, Ne.symm hd]

theorem splitFirst?_eq_some (h : splitFirst? c text = some (front, back)) :
    text = front ++ c :: back ∧ c ∉ front := by
  induction text generalizing front with
  | nil => cases h
  | cons d rest ih =>
      rw [splitFirst?] at h
      split at h
      · next hd =>
        obtain ⟨rfl, rfl⟩ := Prod.mk.inj (Option.some.inj h)
        exact ⟨by rw [hd, List.nil_append], List.not_mem_nil⟩
      · next hd =>
        obtain ⟨⟨front, back⟩, hrest, heq⟩ := Option.map_eq_some_iff.1 h
        obtain ⟨rfl, rfl⟩ := Prod.mk.inj heq
        obtain ⟨rfl, hfront⟩ := ih hrest
        exact ⟨rfl, by simp [hfront, Ne.symm hd]⟩

/-! ## References -/

/-- Two numbers with a dot between them name an instruction of the window and its operand. -/
inductive RefersTo (window : List Instruction) : List Char → Operand → Prop where
  | indices {first second : List Char} {i j : Nat} {insn : Instruction} {operand : Operand} :
      '.' ∉ first → IsUnsigned 10 first i → i < UInt64.size → IsUnsigned 10 second j →
        j < UInt64.size → window[i]? = some insn → insn.operands[j]? = some operand →
          RefersTo window (first ++ '.' :: second) operand

theorem index?_eq_some_iff {i : Nat} :
    index? text = some i ↔ IsUnsigned 10 text i ∧ i < UInt64.size :=
  Text.Numeral.below?_eq_some_iff

theorem refersTo_iff :
    RefersTo window inner operand ↔
      ∃ piece, reference? inner = some piece ∧ piece.resolve? window = some operand.toList := by
  constructor
  · intro h
    cases h with
    | @indices first second i j insn _ hdot hi hi' hj hj' hinsn hoperand =>
        refine ⟨.operand i j, ?_, ?_⟩
        · rw [reference?, splitFirst?_append hdot]
          simp [index?_eq_some_iff.2 ⟨hi, hi'⟩, index?_eq_some_iff.2 ⟨hj, hj'⟩]
        · simp [Piece.resolve?, hinsn, hoperand]
  · rintro ⟨piece, hpiece, hresolve⟩
    simp only [reference?, Option.bind_eq_bind, Option.bind_eq_some_iff, Option.pure_def] at hpiece
    obtain ⟨⟨first, second⟩, hsplit, i, hi, j, hj, hpiece⟩ := hpiece
    obtain rfl := Option.some.inj hpiece
    simp only [Piece.resolve?, Option.bind_eq_bind, Option.bind_eq_some_iff, Option.pure_def,
      Option.some.injEq] at hresolve
    obtain ⟨insn, hinsn, other, hother, htext⟩ := hresolve
    obtain rfl := String.toList_inj.1 htext
    obtain ⟨rfl, hdot⟩ := splitFirst?_eq_some hsplit
    obtain ⟨hi, hi'⟩ := index?_eq_some_iff.1 hi
    obtain ⟨hj, hj'⟩ := index?_eq_some_iff.1 hj
    exact .indices hdot hi hi' hj hj' hinsn hother

/-! ## Whole templates -/

/--
From left to right, every opening brace is closed, and each operand stands as it is where it is
referred to. What is put in for a reference is not looked at again.
-/
inductive Resolves (window : List Instruction) : List Char → List Char → Prop where
  | text {chars : List Char} : '\x7b' ∉ chars → Resolves window chars chars
  | reference {front inner back out : List Char} {operand : Operand} :
      '\x7b' ∉ front → '\x7d' ∉ inner → RefersTo window inner operand → Resolves window back out →
        Resolves window (front ++ '\x7b' :: (inner ++ '\x7d' :: back))
          (front ++ (operand.toList ++ out))

theorem parse?_of_not_mem (h : '\x7b' ∉ text) : parse? text = some [.text text] := by
  rw [parse?]
  split
  · rfl
  · next hopen =>
    rw [splitFirst?_eq_none_iff.2 h] at hopen
    cases hopen

theorem parse?_append (hfront : '\x7b' ∉ front) (hinner : '\x7d' ∉ inner) :
    parse? (front ++ '\x7b' :: (inner ++ '\x7d' :: back)) =
      (reference? inner).bind fun piece =>
        (parse? back).map fun later => .text front :: piece :: later := by
  rw [parse?]
  split
  · next hopen =>
    rw [splitFirst?_append hfront] at hopen
    cases hopen
  · next hopen =>
    rw [splitFirst?_append hfront] at hopen
    obtain ⟨rfl, rfl⟩ := Prod.mk.inj (Option.some.inj hopen)
    split
    · next hclose =>
      rw [splitFirst?_append hinner] at hclose
      cases hclose
    · next hclose =>
      rw [splitFirst?_append hinner] at hclose
      obtain ⟨rfl, rfl⟩ := Prod.mk.inj (Option.some.inj hclose)
      cases reference? inner <;> cases parse? back <;> rfl

theorem fill?_cons {piece : Piece} {later : Template} :
    fill? (piece :: later) window = some statement ↔
      ∃ chars rest, piece.resolve? window = some chars ∧ fill? later window = some rest ∧
        statement.toList = chars ++ rest.toList := by
  simp only [fill?, List.mapM_cons, Option.bind_eq_bind, Option.bind_eq_some_iff, Option.pure_def,
    Option.some.injEq]
  constructor
  · rintro ⟨_, ⟨chars, hchars, parts, hparts, rfl⟩, rfl⟩
    exact ⟨chars, _, hchars, ⟨parts, hparts, rfl⟩, by simp⟩
  · rintro ⟨chars, _, hchars, ⟨parts, hparts, rfl⟩, hstatement⟩
    exact ⟨_, ⟨chars, hchars, parts, hparts, rfl⟩, by
      rw [← String.toList_inj, hstatement]
      simp⟩

theorem fill?_text : fill? [.text text] window = some (String.ofList text) := by
  simp [fill?, Piece.resolve?]

theorem resolves_of_fill? {template : Template} (hparse : parse? text = some template)
    (hfill : template.fill? window = some statement) :
    Resolves window text statement.toList := by
  fun_induction parse? text generalizing template statement with
  | case1 text hopen =>
      obtain rfl := Option.some.inj hparse
      obtain rfl := Option.some.inj (fill?_text.symm.trans hfill)
      rw [String.toList_ofList]
      exact .text (splitFirst?_eq_none_iff.1 hopen)
  | case3 text front rest hopen inner back hclose _ _ piece later hlater hpiece ih =>
      obtain rfl := Option.some.inj hparse
      obtain ⟨_, _, hfront, hfill, hstatement⟩ := fill?_cons.1 hfill
      obtain rfl := Option.some.inj hfront
      obtain ⟨chars, statement', hchars, hfill, htail⟩ := fill?_cons.1 hfill
      obtain ⟨rfl, hfront⟩ := splitFirst?_eq_some hopen
      obtain ⟨rfl, hinner⟩ := splitFirst?_eq_some hclose
      have hrefers : RefersTo window inner (String.ofList chars) :=
        refersTo_iff.2 ⟨piece, hpiece, by rw [String.toList_ofList, hchars]⟩
      have hresolves := Resolves.reference hfront hinner hrefers (ih hlater hfill)
      rwa [String.toList_ofList, ← htail, ← hstatement] at hresolves
  | case2 => cases hparse
  | case4 => cases hparse

theorem Resolves.exists_fill? (h : Resolves window text out) :
    ∃ template, parse? text = some template ∧ template.fill? window = some (String.ofList out) := by
  induction h with
  | text h => exact ⟨_, parse?_of_not_mem h, fill?_text⟩
  | reference hfront hinner hrefers _ ih =>
      obtain ⟨later, hparse, hfill⟩ := ih
      obtain ⟨piece, hpiece, hresolve⟩ := refersTo_iff.1 hrefers
      refine ⟨.text _ :: piece :: later, by rw [parse?_append hfront hinner, hpiece, hparse]; rfl, ?_⟩
      rw [fill?_cons]
      exact ⟨_, _, rfl, fill?_cons.2 ⟨_, _, hresolve, hfill, String.toList_ofList⟩, by simp⟩

/-- A template is read and filled exactly if it resolves, and to what it resolves to. -/
theorem fill?_parse?_iff :
    ((parse? text).bind fun template => template.fill? window) = some statement ↔
      Resolves window text statement.toList := by
  rw [Option.bind_eq_some_iff]
  constructor
  · rintro ⟨template, hparse, hfill⟩
    exact resolves_of_fill? hparse hfill
  · intro h
    simpa using h.exists_fill?

end Template

/-! ## Idioms -/

variable {window : List Instruction} {found : Match}

theorem Template.parse?_common :
    Template.parse? "*(\x7b0.1\x7d + \x7b0.2\x7d) += \x7b1.2\x7d;".toList =
      some [.text ['*', '('], .operand 0 1, .text [' ', '+', ' '], .operand 0 2,
        .text [')', ' ', '+', '=', ' '], .operand 1 2, .text [';']] := by
  decide +kernel

/-- The text in front of the first reference starts the statement. -/
theorem Template.prefix_of_fill? {chars : List Char} {later : Template} {statement : String}
    (h : Template.fill? (.text chars :: later) window = some statement) :
    chars <+: statement.toList := by
  simp only [Template.fill?, List.mapM_cons, Template.Piece.resolve?, Option.bind_eq_bind,
    Option.bind_eq_some_iff, Option.pure_def, Option.some.injEq] at h
  obtain ⟨parts, ⟨_, rfl, texts, -, rfl⟩, rfl⟩ := h
  rw [String.toList_ofList]
  exact List.prefix_append chars texts.flatten

theorem Idiom.fits_iff {idiom : Idiom} :
    idiom.fits window = true ↔
      idiom.mnemonics ≠ [] ∧ idiom.mnemonics <+: window.map (·.mnemonic) := by
  rw [fits, Bool.and_eq_true, decide_eq_true_eq, List.map_take, List.prefix_iff_eq_take,
    eq_comm (a := idiom.mnemonics)]
  simp

theorem Idiom.match?_eq_some {idiom : Idiom} (h : idiom.match? window = some found) :
    idiom.fits window = true ∧ found.consumed = idiom.length ∧
      ∃ template, Template.parse? idiom.replacement.toList = some template ∧
        template.fill? window = some found.statement := by
  simp only [Idiom.match?, Option.bind_eq_bind, Option.bind_eq_some_iff] at h
  obtain ⟨_, hguard, template, hparse, statement, hfill, hfound⟩ := h
  obtain rfl := Option.some.inj hfound
  cases hfits : idiom.fits window with
  | true => exact ⟨rfl, rfl, template, hparse, hfill⟩
  | false =>
      rw [hfits] at hguard
      cases hguard

end FirmwareLift
