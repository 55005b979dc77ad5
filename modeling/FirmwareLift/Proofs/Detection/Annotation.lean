import FirmwareLift.Proofs.Numeral
import FirmwareLift.Proofs.Routine

/-!
# Comments that detection attaches

The comment of a call names the family of the function, which may be any text, and then the
function. The name that is read back is the one that was written, and an instruction that was
looked at once is not changed again.
-/

namespace FirmwareLift

/-! ## Names in comments -/

namespace Instruction

variable {part front name : List Char}

theorem afterSeparator_of_not_mem (h : ':' ∉ name) : afterSeparator part name = part := by
  fun_induction afterSeparator part name with
  | case1 => simp at h
  | case2 part c rest hne ih => exact ih (List.not_mem_of_not_mem_cons h)
  | case3 => rfl

/-- What stands in front of a separator does not matter, and it may hold separators itself. -/
theorem afterSeparator_append (part front name : List Char) :
    afterSeparator part (front ++ ':' :: ' ' :: name) = afterSeparator name name := by
  -- A separator in front replaces the part, so the part has to vary.
  suffices h : ∀ other, afterSeparator other (front ++ ':' :: ' ' :: name) =
    afterSeparator name name from h part
  fun_induction afterSeparator part front with
  | case1 part front ih =>
      intro other
      rw [List.cons_append, List.cons_append, afterSeparator]
      exact ih _
  | case2 part c front hne ih =>
      intro other
      rw [List.cons_append, afterSeparator]
      · exact ih other
      · rintro rest rfl hrest
        cases front with
        | nil => cases hrest
        | cons c' front =>
            obtain ⟨rfl, rfl⟩ := List.cons.inj hrest
            exact hne front rfl rfl
  | case3 =>
      intro other
      rw [List.nil_append, afterSeparator]

end Instruction

namespace Operand

theorem exists_digitValue?_of_isAlphanum {c : Char} (h : c.isAlphanum = true) :
    ∃ digit, Text.Numeral.digitValue? c = some digit := by
  change ((decide (_ ∧ _) || (decide _ && decide _)) || (decide _ && decide _)) = true at h
  simp only [Bool.or_eq_true, Bool.and_eq_true, decide_eq_true_eq] at h
  unfold Text.Numeral.digitValue?
  split
  · exact ⟨_, rfl⟩
  split
  · exact ⟨_, rfl⟩
  split
  · exact ⟨_, rfl⟩
  next hdigit hlower hupper =>
    rcases h with (h | h) | h
    · exact absurd h hupper
    · exact absurd h hlower
    · exact absurd h hdigit

variable {name : List Char}

theorem forall_mem_of_isIdentifier (h : isIdentifier name = true) :
    ∀ c ∈ name, c.isAlphanum = true ∨ c = '_' := by
  cases name with
  | nil => cases h
  | cons c rest =>
      simp only [isIdentifier, Bool.and_eq_true, Bool.or_eq_true, decide_eq_true_eq,
        List.all_eq_true] at h
      intro c' hc'
      rcases List.mem_cons.1 hc' with rfl | hc'
      · exact h.1.imp (fun halpha => by simp [Char.isAlphanum, halpha]) id
      · exact h.2 c' hc'

theorem not_mem_of_isIdentifier (h : isIdentifier name = true) : ':' ∉ name := by
  intro hmem
  have hcolon := forall_mem_of_isIdentifier h ':' hmem
  revert hcolon
  decide

theorem trim_of_isIdentifier (h : isIdentifier name = true) : Text.trim name = name := by
  refine Text.trim_eq_self fun c hc => ?_
  rcases forall_mem_of_isIdentifier h c hc with halnum | rfl
  · obtain ⟨digit, hdigit⟩ := exists_digitValue?_of_isAlphanum halnum
    exact Text.isBlank_eq_false hdigit
  · decide

end Operand

namespace Instruction

variable {insn : Instruction} {family name comment : String}

/-- The name behind the family is read back, whatever the family is. -/
theorem displayName?_of_comment (hcomment : insn.comment = some s!"{family}: {name}")
    (hname : Operand.isIdentifier name.toList = true) : insn.displayName? = some name := by
  have htext : s!"{family}: {name}".toList = family.toList ++ ':' :: ' ' :: name.toList := by
    change (family ++ ": " ++ name).toList = _
    simp
  rw [displayName?, hcomment, Option.bind_some, htext, afterSeparator_append,
    afterSeparator_of_not_mem (Operand.not_mem_of_isIdentifier hname),
    Operand.trim_of_isIdentifier hname]
  simp [hname]

/-- A name that is shown is an identifier, whether it is from the comment or from the operands. -/
theorem isIdentifier_of_displayName? (h : insn.displayName? = some name) :
    Operand.isIdentifier name.toList = true := by
  rw [displayName?, Option.or_eq_some_iff] at h
  rcases h with hcomment | ⟨-, hoperand⟩
  · obtain ⟨comment, -, hname⟩ := Option.bind_eq_some_iff.1 hcomment
    simp only at hname
    split at hname
    · next hidentifier =>
      rw [← Option.some.inj hname, String.toList_ofList]
      exact hidentifier
    · cases hname
  · obtain ⟨-, hsymbol⟩ := Option.filter_eq_some_iff.1 hoperand
    exact (Bool.and_eq_true_iff.1 hsymbol).1

theorem not_isStore_of_isCall (h : insn.isCall = true) : insn.isStore = false := by
  rw [isCall, decide_eq_true_eq] at h
  simp [isStore, h]

end Instruction

/-! ## One instruction -/

namespace Descriptor

variable (d : Descriptor) (insn : Instruction) (known : Constants)

theorem comment_annotate :
    (d.annotate insn known).1.comment = insn.comment.or (d.note? known insn) := by
  unfold annotate
  split
  · next note hnote => rw [hnote]; rfl
  · next hnote => rw [hnote, Option.or_none]

theorem isNew_annotate :
    (d.annotate insn known).2 = (insn.comment.isNone && (d.note? known insn).isSome) := by
  unfold annotate
  split
  · next note hnote => simp [hnote]
  · next hnote => simp [hnote]

/-- What does not depend on the comment is the same for an instruction that was looked at. -/
theorem view_annotate {α : Type} (view : Instruction → α)
    (hview : ∀ insn : Instruction, view insn.bare = view insn) :
    view (d.annotate insn known).1 = view insn := by
  rw [← hview, bare_annotate, hview]

/-- An instruction is not changed again by what it was looked at with. -/
theorem annotate_annotate :
    d.annotate (d.annotate insn known).1 known = ((d.annotate insn known).1, false) := by
  cases hnote : d.note? known insn with
  | none =>
      have hsame : d.annotate insn known = (insn, false) := by rw [annotate, hnote]
      rw [hsame, hsame]
  | some note =>
      -- There is a comment now, so neither it nor the flag depends on the new note.
      have hcomment : (d.annotate insn known).1.comment = some (insn.comment.getD note) := by
        rw [comment_annotate, hnote, Option.or_some]
      generalize (d.annotate insn known).1 = annotated at hcomment ⊢
      obtain ⟨address, word, mnemonic, operands, comment⟩ := annotated
      cases hcomment
      unfold annotate
      split <;> rfl

end Descriptor

end FirmwareLift
