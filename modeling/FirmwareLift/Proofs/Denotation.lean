import FirmwareLift.Image
import FirmwareLift.Proofs.Encoding
import FirmwareLift.Proofs.Grammar
import FirmwareLift.Proofs.Operand

/-!
# Numbers in operands

Which operands are read as numbers, and as which. The numbers that the decoder writes are among them.
-/

namespace FirmwareLift

namespace Text

/-- What is left of a text without the blanks at its ends. -/
structure IsTrimmed (text core : List Char) : Prop where
  split : ∃ front back, text = front ++ (core ++ back) ∧
    (∀ c ∈ front, isBlank c) ∧ ∀ c ∈ back, isBlank c
  first : ∀ c ∈ core.head?, isBlank c = false
  last : ∀ c ∈ core.getLast?, isBlank c = false

/-- Digits with an optional plus sign, of a value below 2^32. -/
def Numeral.SpellsWord (base : Nat) (text : List Char) (value : Nat) : Prop :=
  (Spells base text value ∨ ∃ digits, text = '+' :: digits ∧ Spells base digits value) ∧
    value < UInt32.size

end Text

open Text.Numeral

namespace Operand

/-- A text without blanks at its ends, and the word that it denotes. -/
inductive Denotes : List Char → Word → Prop where
  | hexadecimal {mark : Char} {text : List Char} {value : Nat} :
      mark = 'x' ∨ mark = 'X' → SpellsWord 16 text value →
        Denotes ('0' :: mark :: text) (.ofNat value)
  | negative {text : List Char} {magnitude : Nat} :
      SpellsWord 10 text magnitude → Denotes ('-' :: text) (.ofInt (-magnitude))
  | decimal {text : List Char} {value : Nat} :
      SpellsWord 10 text value → Denotes text (.ofNat value)

/-- What the decoder writes as a number is read as that number, modulo 2^32 if it has a sign. -/
structure ReadsWritten : Prop where
  word : ∀ word : Word, value? (hex word) = some word
  integer : ∀ i : Int, i.natAbs < UInt32.size → value? (toString i) = some (.ofInt i)
  immediate : ∀ (word : Word) (form : Encoding.Form) (i : Int),
    Encoding.form? word = some form → .signed i ∈ form.operands →
      ∀ symbols image a, value? ((Encoding.OperandForm.signed i).text symbols image a) =
        some (.ofInt i)

end Operand

/-! ## Blanks -/

namespace Text

variable {text core front : List Char}

theorem dropWhile_isBlank_append (hfront : ∀ c ∈ front, isBlank c)
    (hcore : ∀ c ∈ core.head?, isBlank c = false) : (front ++ core).dropWhile isBlank = core := by
  rw [List.dropWhile_append_of_pos hfront]
  cases core with
  | nil => rfl
  | cons c core => exact List.dropWhile_cons_of_neg (by simp [hcore c rfl])

theorem isBlank_of_mem_head?_dropWhile (text : List Char) {c : Char}
    (h : c ∈ (text.dropWhile isBlank).head?) : isBlank c = false := by
  have hhead := List.head?_dropWhile_not isBlank text
  rw [Option.mem_def.1 h] at hhead
  exact hhead

theorem trimStart_eq (text : List Char) :
    trimStart text = trim text ++ ((trimStart text).reverse.takeWhile isBlank).reverse := by
  rw [trim, trimEnd, ← List.reverse_append, List.takeWhile_append_dropWhile, List.reverse_reverse]

theorem isTrimmed_trim (text : List Char) : IsTrimmed text (trim text) where
  split := by
    refine ⟨text.takeWhile isBlank, ((trimStart text).reverse.takeWhile isBlank).reverse, ?_,
      fun c => List.mem_takeWhile_imp, fun c hc => List.mem_takeWhile_imp (List.mem_reverse.1 hc)⟩
    rw [← trimStart_eq, trimStart, List.takeWhile_append_dropWhile]
  first c hc := by
    refine isBlank_of_mem_head?_dropWhile text ?_
    rw [← trimStart, trimStart_eq, List.head?_append, Option.mem_def.1 hc]
    rfl
  last c hc := by
    refine isBlank_of_mem_head?_dropWhile (trimStart text).reverse ?_
    rwa [← List.getLast?_reverse]

theorem isTrimmed_iff : IsTrimmed text core ↔ core = trim text := by
  constructor
  · rintro ⟨⟨front, back, rfl, hfront, hback⟩, hfirst, hlast⟩
    have hend : trimEnd (core ++ back) = core := by
      rw [trimEnd, List.reverse_append, dropWhile_isBlank_append, List.reverse_reverse]
      · exact fun c hc => hback c (List.mem_reverse.1 hc)
      · rwa [List.head?_reverse]
    cases core with
    | nil =>
        -- A text of blanks is used up from its start.
        have hblank : trimStart (front ++ ([] ++ back)) = [] :=
          List.dropWhile_eq_nil_iff.2 fun c hc => (List.mem_append.1 hc).elim (hfront c) (hback c)
        rw [trim, hblank]
        rfl
    | cons c core =>
        have hstart : trimStart (front ++ (c :: core ++ back)) = c :: core ++ back :=
          dropWhile_isBlank_append hfront hfirst
        rw [trim, hstart, hend]
  · rintro rfl
    exact isTrimmed_trim text

end Text

/-! ## Operands -/

theorem ofInt_neg_natCast (n : Nat) : UInt32.ofInt (-n) = 0 - .ofNat n := by
  rw [UInt32.ofInt_neg, ← UInt32.zero_sub, ofInt_natCast]

namespace Operand

variable {operand : Operand} {text : List Char} {value : Word}

theorem word?_eq_some_iff {base : Nat} (hbase : base ≤ 16) :
    word? base text = some value ↔ ∃ n, SpellsWord base text n ∧ .ofNat n = value := by
  simp only [word?, Option.map_eq_some_iff, below?_eq_some_iff, isUnsigned_iff hbase, SpellsWord]

theorem word?_marked {mark : Char} (h : mark = 'x' ∨ mark = 'X') :
    word? 10 ('0' :: mark :: text) = none := by
  rcases h with rfl | rfl
  · rfl
  · rfl

/-- Behind the mark of the base, the text is read in that base and in no other way. -/
theorem denotes_hexadecimal_iff {mark : Char} (h : mark = 'x' ∨ mark = 'X') :
    Denotes ('0' :: mark :: text) value ↔ word? 16 text = some value := by
  rw [word?_eq_some_iff (by decide)]
  constructor
  · intro hdenotes
    cases hdenotes with
    | hexadecimal _ hspells => exact ⟨_, hspells, rfl⟩
    | decimal hspells =>
        have hread := (word?_eq_some_iff (by decide)).2 ⟨_, hspells, rfl⟩
        rw [word?_marked h] at hread
        cases hread
  · rintro ⟨n, hspells, rfl⟩
    exact .hexadecimal h hspells

theorem denotes_negative_iff :
    Denotes ('-' :: text) value ↔ (word? 10 text).map (0 - ·) = some value := by
  simp only [Option.map_eq_some_iff, word?_eq_some_iff (by decide : 10 ≤ 16)]
  constructor
  · intro hdenotes
    cases hdenotes with
    | negative hspells => exact ⟨_, ⟨_, hspells, rfl⟩, (ofInt_neg_natCast _).symm⟩
    | decimal hspells =>
        have hread := (word?_eq_some_iff (by decide)).2 ⟨_, hspells, rfl⟩
        have hsign : digitValue? '-' = none := by decide
        rw [word?_eq_none (by decide) (by simp [hsign])] at hread
        cases hread
  · rintro ⟨_, ⟨n, hspells, rfl⟩, rfl⟩
    rw [← ofInt_neg_natCast]
    exact .negative hspells

theorem value?_eq_some_iff :
    value? operand = some value ↔ Denotes (Text.trim operand.toList) value := by
  unfold value?
  generalize Text.trim operand.toList = text
  split
  · exact (denotes_hexadecimal_iff (.inl rfl)).symm
  · exact (denotes_hexadecimal_iff (.inr rfl)).symm
  · exact denotes_negative_iff.symm
  · next hlower hupper hsign =>
    rw [word?_eq_some_iff (by decide)]
    constructor
    · rintro ⟨n, hspells, rfl⟩
      exact .decimal hspells
    · intro hdenotes
      cases hdenotes with
      | hexadecimal hmark hspells =>
          rcases hmark with rfl | rfl
          · exact absurd rfl (hlower _)
          · exact absurd rfl (hupper _)
      | negative hspells => exact absurd rfl (hsign _)
      | decimal hspells => exact ⟨_, hspells, rfl⟩

theorem reads_denoted :
    (∀ (operand : Operand) (value : Word), value? operand = some value ↔
      ∃ text, Text.IsTrimmed operand.toList text ∧ Denotes text value) ∧ ReadsWritten := by
  refine ⟨fun operand value => ?_, value?_hex, fun i => value?_integer, ?_⟩
  · simp only [Text.isTrimmed_iff, exists_eq_left]
    exact value?_eq_some_iff
  · intro word form i hform hsigned symbols image a
    exact value?_integer (Encoding.natAbs_lt_of_signed hform hsigned)

/-- Zeros in front do not count, and blanks need not be those of ASCII. -/
example : value? "\u3000-+0000000000005\t" = some 0xfffffffb := by decide +kernel

end Operand

end FirmwareLift
