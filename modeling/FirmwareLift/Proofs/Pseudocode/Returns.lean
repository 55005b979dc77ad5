import FirmwareLift.Proofs.Pseudocode.Ending
import FirmwareLift.Proofs.Pseudocode.Idiom

/-!
# Lines that return a value

Which lines of pseudocode read `return a2;`. The statement of an instruction never does, nor does a
line of a construct. So such a line ends a block of a function that returns a value, unless an idiom
that is registered gives it.
-/

namespace FirmwareLift

def valueReturn : String := "return a2;"

/-- The text holds a character that the return of a value does not hold. -/
def Marked (text : String) : Prop :=
  ∃ c ∈ text.toList, c ∉ valueReturn.toList

instance (text : String) : Decidable (Marked text) :=
  List.decidableBEx (fun c => c ∉ valueReturn.toList) text.toList

theorem Marked.ne {text : String} (h : Marked text) : text ≠ valueReturn := by
  rintro rfl
  obtain ⟨c, hc, hnot⟩ := h
  exact hnot hc

theorem ne_of_isBound {line : Line} (h : line.IsBound) : line.text ≠ valueReturn := by
  rcases h with heq | heq
  · exact heq ▸ Marked.ne (by simp +decide)
  · exact heq ▸ Marked.ne (by simp +decide)

@[simp] theorem marked_append {front back : String} :
    Marked (front ++ back) ↔ Marked front ∨ Marked back := by
  simp only [Marked, String.toList_append, List.mem_append, or_and_right, exists_or]

namespace Instruction

variable {insn : Instruction} {text : String}

theorem marked_additionText (result left constant : Operand) :
    Marked (additionText result left constant) := by
  unfold additionText
  split <;> simp +decide

theorem marked_callText : Marked insn.callText := by
  unfold callText
  split <;> simp +decide

theorem marked_unknownText : Marked insn.unknownText := by
  unfold unknownText
  split <;> simp +decide

/-- A statement assigns, calls, jumps or remarks, or it returns nothing. -/
theorem statement?_eq_some (h : insn.statement? = some text) : text = "return;" ∨ Marked text := by
  unfold statement? at h
  split at h
  · cases h
    simp +decide
  · split at h <;> cases h
    all_goals simp +decide [marked_additionText, marked_callText, branchText, marked_unknownText]

theorem ne_of_commentedStatement? (h : insn.commentedStatement? = some text) :
    text ≠ valueReturn := by
  obtain ⟨statement, hstatement, rfl⟩ := Option.map_eq_some_iff.1 h
  have hplain : statement ≠ valueReturn := by
    rcases statement?_eq_some hstatement with rfl | hmarked
    · decide
    · exact hmarked.ne
  split
  · split
    · exact hplain
    · exact Marked.ne (by simp +decide)
  · exact hplain

end Instruction

namespace Shape

variable {window : List Instruction} {found : Match}

theorem marked_of_gpioCall? (h : gpioCall? window = some found) : Marked found.statement := by
  unfold gpioCall? at h
  split at h
  · simp only [Option.bind_eq_bind, Option.bind_eq_some_iff] at h
    obtain ⟨_, -, _, -, h⟩ := h
    split at h
    · cases h
      dsimp only
      split <;> simp +decide
    · cases h
  · cases h

theorem marked_of_registerWrite? (h : registerWrite? window = some found) :
    Marked found.statement := by
  unfold registerWrite? at h
  split at h
  · simp only [Option.bind_eq_bind, Option.bind_eq_some_iff] at h
    obtain ⟨_, -, h⟩ := h
    split at h
    · split at h
      · cases h
        dsimp only
        split
        · simp +decide
        · split <;> simp +decide
      · cases h
    · cases h
  · cases h

theorem marked_of_primitiveCall? (h : primitiveCall? window = some found) :
    Marked found.statement := by
  unfold primitiveCall? at h
  split at h
  · simp only [Option.bind_eq_bind, Option.bind_eq_some_iff] at h
    obtain ⟨_, -, h⟩ := h
    split at h
    · split at h
      · cases h
        simp +decide
      · split at h
        · cases h
          simp +decide
        · split at h
          · cases h
            simp +decide
          · cases h
    · cases h
  · cases h

theorem marked_of_match? (h : match? window = some found) : Marked found.statement := by
  rcases Option.or_eq_some_iff.1 h with h | ⟨-, h⟩
  · exact marked_of_gpioCall? h
  · rcases Option.or_eq_some_iff.1 h with h | ⟨-, h⟩
    · exact marked_of_registerWrite? h
    · exact marked_of_primitiveCall? h

end Shape

namespace IdiomLibrary

variable {library : IdiomLibrary} {text : String}

/-- A registered idiom gives the very statement. -/
def Gives (library : IdiomLibrary) (text : String) : Prop :=
  ∃ idiom ∈ library, ∃ window found, idiom.match? window = some found ∧ found.statement = text

theorem gives_of_match? {window : List Instruction} {found : Match}
    (h : library.match? window = some found) (htext : found.statement = valueReturn) :
    library.Gives valueReturn := by
  rcases Option.or_eq_some_iff.1 h with h | ⟨-, h⟩
  · obtain ⟨idiom, hidiom, hmatch⟩ := List.exists_of_findSome?_eq_some h
    exact ⟨idiom, hidiom, window, found, hmatch, htext⟩
  · exact absurd htext (Shape.marked_of_match? h).ne

theorem gives_of_mem_stretches {body : List Instruction} {stretch : Stretch}
    (h : stretch ∈ library.stretches body) (htext : stretch.statement = some valueReturn) :
    library.Gives valueReturn := by
  fun_induction stretches library body with
  | case1 => exact absurd h List.not_mem_nil
  | case2 insn rest found hfound ih =>
      rcases List.mem_cons.1 h with rfl | h
      · exact gives_of_match? hfound (Option.some.inj htext)
      · exact ih h
  | case3 insn rest hnone ih =>
      rcases List.mem_cons.1 h with rfl | h
      · exact absurd rfl (Instruction.ne_of_commentedStatement? htext)
      · exact ih h

/-- No increment of a word is a return. -/
theorem not_gives_common : ¬ common.Gives valueReturn := by
  rintro ⟨idiom, hidiom, window, found, hmatch, htext⟩
  obtain ⟨-, -, template, hparse, hfill⟩ := Idiom.match?_eq_some hmatch
  obtain rfl := List.mem_singleton.1 hidiom
  obtain rfl := Option.some.inj (Template.parse?_common.symm.trans hparse)
  have hstart := Template.prefix_of_fill? hfill
  rw [htext] at hstart
  exact absurd hstart (by decide)

end IdiomLibrary

/-! ## Lines -/

namespace Ending

variable {returnsValue : Bool}

theorem statement_of_unresolved {g : FlowGraph} {b : Block} {statement : Option String}
    (h : ofBlock g b = unresolved statement) : ∃ jump : Instruction, statement = jump.statement? := by
  unfold ofBlock at h
  split at h
  · cases h
  · next last _ =>
    split at h
    · cases h
    · split at h
      · unfold ofBranch at h
        split at h <;> cases h
      · unfold ofJump at h
        split at h
        · split at h <;> cases h
        · cases h
          exact ⟨last, rfl⟩

theorem returnsValue_of_mem_texts {g : FlowGraph} {b : Block}
    (h : valueReturn ∈ (ofBlock g b).texts returnsValue) : returnsValue = true := by
  cases hending : ofBlock g b with
  | straight | forward => simp [hending, texts] at h
  | ret =>
      cases returnsValue with
      | true => rfl
      | false => simp +decide [hending, texts] at h
  | alternative | oneArm | noArm | endless =>
      rw [hending] at h
      exact absurd (List.mem_singleton.1 h).symm (Marked.ne (by simp +decide))
  | unresolved statement =>
      obtain ⟨jump, rfl⟩ := statement_of_unresolved hending
      rw [hending] at h
      rcases Instruction.statement?_eq_some (Option.mem_toList.1 h) with heq | hmarked
      · exact absurd heq (by decide)
      · exact absurd rfl hmarked.ne

end Ending

namespace FlowGraph

variable {g : FlowGraph} {library : IdiomLibrary} {returnsValue : Bool} {line : Line}

/-- A line that returns a value stands in a function that does, unless an idiom gives it. -/
theorem returnsValue_of_mem_lines {base : Nat} (h : line ∈ g.lines library returnsValue base)
    (htext : line.text = valueReturn) : returnsValue = true ∨ library.Gives valueReturn := by
  rw [lines] at h
  split at h
  · obtain rfl := List.mem_singleton.1 h
    exact absurd htext (Marked.ne (by simp +decide))
  · obtain ⟨visit, hvisit, hline⟩ := List.mem_flatMap.1 h
    cases visit with
    | first b depth =>
        obtain ⟨text, hmem, rfl⟩ := List.mem_map.1 hline
        obtain rfl : text = valueReturn := htext
        rcases List.mem_append.1 hmem with hmem | hmem
        · obtain ⟨stretch, hstretch, hstatement⟩ := List.mem_filterMap.1 hmem
          exact .inr (IdiomLibrary.gives_of_mem_stretches hstretch hstatement)
        · exact .inl (Ending.returnsValue_of_mem_texts hmem)
    | again b depth =>
        obtain rfl := List.mem_singleton.1 hline
        exact absurd htext (Marked.ne (by simp +decide))
    | line l =>
        obtain rfl := List.mem_singleton.1 hline
        exact absurd htext (ne_of_isBound (isBound_of_mem_visits hvisit))

end FlowGraph

end FirmwareLift
