import FirmwareLift.Proofs.Operand
import FirmwareLift.Proofs.Pseudocode.Effect
import FirmwareLift.Proofs.Pseudocode.Idiom
import FirmwareLift.Pseudocode.Block

/-!
# Statements that are read

The statement of an instruction that loads a constant, adds one or accesses a word is read back as
what the instruction does. The statements that replace several instructions can be read as well.
-/

namespace FirmwareLift

variable {operand base offset register : Operand} {word : Word} {c : Char}

/-! ## Operands in statements -/

/-- A register or a number. -/
inductive IsAtom (operand : Operand) : Expression → Prop where
  | register : operand.isRegister = true → IsAtom operand ⟨some operand, 0⟩
  | constant {word : Word} : operand.value? = some word → IsAtom operand ⟨none, word⟩

variable {e address value : Expression}

/-- No operand holds a character that delimits the parts of a statement. -/
theorem IsAtom.not_mem (h : IsAtom operand e) (hc : c ∈ [';', ')', ',', '*']) :
    c ∉ operand.toList := by
  have hmarks : ∀ c ∈ [';', ')', ',', '*'], c ≠ 'a' ∧ c.isDigit = false ∧ Text.isBlank c = false ∧
      Operand.isNumeric c = false := by
    simp only [List.forall_mem_cons, List.not_mem_nil, false_implies, implies_true]
    decide
  obtain ⟨hne, hdigit, hblank, hnumeric⟩ := hmarks c hc
  cases h with
  | register h => exact Operand.not_mem_of_isRegister h hne hdigit
  | constant h => exact Operand.not_mem_of_value? h hblank hnumeric

theorem IsAtom.atom?_eq (h : IsAtom operand e) : Expression.atom? operand.toList = some e := by
  rw [Expression.atom?, String.ofList_toList]
  cases h with
  | register h => simp [h]
  | constant h =>
      have hregister : operand.isRegister = false := by
        rw [Bool.eq_false_iff]
        intro hr
        rw [Operand.value?_of_isRegister hr] at h
        cases h
      simp [hregister, h]

theorem IsAtom.read?_eq (h : IsAtom operand e) : Expression.read? operand.toList = some e := by
  rw [Expression.read?, h.atom?_eq, Option.some_or]

theorem Operand.blank_not_mem (h : register.isRegister = true) : ' ' ∉ register.toList :=
  Operand.not_mem_of_isRegister h (by decide) (by decide)

/-- Text that goes on behind a register and a blank is no atom. -/
theorem Expression.atom?_eq_none (h : register.isRegister = true) (rest : List Char) :
    Expression.atom? (register.toList ++ ' ' :: rest) = none := by
  obtain ⟨digits, htext, -, -⟩ := Operand.isRegister_iff.1 h
  have hregister : Operand.isRegister (String.ofList (register.toList ++ ' ' :: rest)) = false := by
    rw [Bool.eq_false_iff]
    intro hr
    have hblank := Operand.blank_not_mem hr
    simp at hblank
  have hvalue : Operand.value? (String.ofList (register.toList ++ ' ' :: rest)) = none :=
    Operand.value?_of_letter (String.toList_ofList.trans (by rw [htext]; rfl))
  simp only [Expression.atom?, hregister, hvalue]
  rfl

theorem Expression.read?_sum (hbase : base.isRegister = true)
    (hoffset : offset.value? = some word) :
    Expression.read? (base.toList ++ ' ' :: '+' :: ' ' :: offset.toList) =
      some ⟨some base, word⟩ := by
  rw [Expression.read?, Expression.atom?_eq_none hbase, Option.none_or,
    Template.splitFirst?_append (Operand.blank_not_mem hbase)]
  simp [(IsAtom.register hbase).atom?_eq, hoffset]

theorem Expression.read?_difference (hbase : base.isRegister = true) {text : List Char}
    (htext : Operand.value? (String.ofList text) = some word) :
    Expression.read? (base.toList ++ ' ' :: '-' :: ' ' :: text) = some ⟨some base, 0 - word⟩ := by
  rw [Expression.read?, Expression.atom?_eq_none hbase, Option.none_or,
    Template.splitFirst?_append (Operand.blank_not_mem hbase)]
  simp [(IsAtom.register hbase).atom?_eq, htext]

theorem toString_eq (text : String) : toString text = text := rfl

theorem Expression.read?_effectiveAddress (hbase : base.isRegister = true)
    (hoffset : offset.value? = some word) :
    Expression.read? (Instruction.effectiveAddress base offset).toList =
      some ⟨some base, word⟩ := by
  rw [Instruction.effectiveAddress]
  split
  · next hzero =>
    obtain rfl : word = 0 := Option.some.inj (hoffset.symm.trans hzero)
    exact (IsAtom.register hbase).read?_eq
  · have htext := Expression.read?_sum hbase hoffset
    simpa [toString_eq] using htext

/-- An address holds no character that ends it in a statement. -/
theorem Instruction.not_mem_effectiveAddress (hbase : base.isRegister = true)
    (hoffset : offset.value? = some word) (hc : c ∈ [';', ')', ',', '*']) :
    c ∉ (Instruction.effectiveAddress base offset).toList := by
  have hplus : ∀ c ∈ [';', ')', ',', '*'], c ∉ " + ".toList := by simp
  have hfirst := (IsAtom.register hbase).not_mem hc
  have hsecond := (IsAtom.constant hoffset).not_mem hc
  rw [Instruction.effectiveAddress]
  split
  · exact hfirst
  · have hplus := hplus c hc
    simp only [toString_eq, String.toList_append, List.mem_append, not_or]
    exact ⟨⟨hfirst, hplus⟩, hsecond⟩

/-! ## Statements -/

theorem Effect.read?_of_not_mem {text : List Char} (h : ';' ∉ text) (rest : List Char) :
    Effect.read? (text ++ ';' :: rest) = Effect.readStatement? text := by
  rw [Effect.read?, Template.splitFirst?_append h]
  rfl

theorem Operand.head_ne_of_isRegister (h : register.isRegister = true) (hc : c ≠ 'a')
    (text rest : List Char) :
    register.toList ++ text ≠ c :: rest := by
  obtain ⟨digits, htext, -, -⟩ := Operand.isRegister_iff.1 h
  rw [htext]
  exact fun heq => hc (List.cons.inj heq).1.symm

theorem Effect.read?_assignment (h : register.isRegister = true) {text : List Char}
    (htext : ';' ∉ text) (rest : List Char) :
    Effect.read? (register.toList ++ ' ' :: '=' :: ' ' :: text ++ ';' :: rest) =
      Effect.readAssignment? (register.toList ++ ' ' :: '=' :: ' ' :: text) := by
  have hmark : ';' ∉ register.toList ++ ' ' :: '=' :: ' ' :: text := by
    have hregister := (IsAtom.register h).not_mem (c := ';') (by simp)
    simp [hregister, htext]
  rw [Effect.read?_of_not_mem hmark]
  obtain ⟨digits, hdigits, -, -⟩ := Operand.isRegister_iff.1 h
  rw [hdigits]
  rfl

theorem Effect.readAssignment?_value (h : register.isRegister = true) {text : List Char}
    (hstar : ∀ rest, text ≠ '*' :: '(' :: rest) (htext : Expression.read? text = some e) :
    Effect.readAssignment? (register.toList ++ ' ' :: '=' :: ' ' :: text) =
      some (.assign register e) := by
  rw [Effect.readAssignment?, Template.splitFirst?_append (Operand.blank_not_mem h)]
  simp [htext]

theorem Effect.readAssignment?_load (h : register.isRegister = true) {text : List Char}
    (hclose : ')' ∉ text) (htext : Expression.read? text = some e) :
    Effect.readAssignment? (register.toList ++ ' ' :: '=' :: ' ' :: '*' :: '(' :: (text ++ [')'])) =
      some (.load register e) := by
  rw [Effect.readAssignment?, Template.splitFirst?_append (Operand.blank_not_mem h)]
  simp [Template.splitFirst?_append hclose, htext]

theorem Effect.readStatement?_store {text : List Char} {address value : Expression}
    (hclose : ')' ∉ text) (htext : Expression.read? text = some address)
    (hvalue : IsAtom operand value) :
    Effect.readStatement? ('*' :: '(' :: (text ++ ')' :: ' ' :: '=' :: ' ' :: operand.toList)) =
      some (.store address value) := by
  rw [Effect.readStatement?, Effect.readAccess?, Template.splitFirst?_append hclose]
  simp [htext, hvalue.read?_eq]

theorem Effect.readStatement?_increment {text : List Char} {address amount : Expression}
    (hclose : ')' ∉ text) (htext : Expression.read? text = some address)
    (hamount : IsAtom operand amount) :
    Effect.readStatement?
        ('*' :: '(' :: (text ++ ')' :: ' ' :: '+' :: '=' :: ' ' :: operand.toList)) =
      some (.increment address amount) := by
  rw [Effect.readStatement?, Effect.readAccess?, Template.splitFirst?_append hclose]
  simp [htext, hamount.read?_eq]

theorem Effect.readStatement?_registerWrite {text : List Char} {address value : Expression}
    (hcomma : ',' ∉ text) (htext : Expression.read? text = some address)
    (hvalue : IsAtom operand value) :
    Effect.readStatement?
        ("REG_WRITE(".toList ++ (text ++ ',' :: ' ' :: (operand.toList ++ [')']))) =
      some (.store address value) := by
  have hclose := hvalue.not_mem (c := ')') (by simp)
  change Effect.readRegisterWrite? (text ++ ',' :: ' ' :: (operand.toList ++ [')'])) = _
  rw [Effect.readRegisterWrite?, Template.splitFirst?_append hcomma]
  simp [Template.splitFirst?_append hclose, htext, hvalue.read?_eq]

/-! ## Instructions -/

namespace Instruction.Means

variable {insn : Instruction} {effect : Effect}

theorem read?_addition {target source amount : Operand} (htarget : target.isRegister = true)
    (hsource : source.isRegister = true) (hamount : amount.value? = some word) (rest : List Char) :
    Effect.read? ((additionText target source amount).toList ++ rest) =
      some (.assign target ⟨some source, word⟩) := by
  have hread : ∀ {text : List Char} {e : Expression}, ';' ∉ text →
      Expression.read? (source.toList ++ text) = some e →
        Effect.read?
            (target.toList ++ ' ' :: '=' :: ' ' :: (source.toList ++ text) ++ ';' :: rest) =
          some (.assign target e) := by
    intro text e htext he
    have hsource' := (IsAtom.register hsource).not_mem (c := ';') (by simp)
    rw [Effect.read?_assignment htarget (by simp [hsource', htext])]
    exact Effect.readAssignment?_value htarget
      (fun _ => Operand.head_ne_of_isRegister hsource (by decide) _ _) he
  have hsemicolon := (IsAtom.constant hamount).not_mem (c := ';') (by simp)
  unfold additionText
  split
  · next magnitude htext =>
    obtain ⟨value, hvalue, rfl⟩ := Operand.value?_of_minus hamount htext
    have hmagnitude : ';' ∉ magnitude := fun hmem =>
      hsemicolon (htext ▸ List.mem_cons_of_mem _ hmem)
    have hstatement := hread (by simpa using hmagnitude)
      (Expression.read?_difference hsource hvalue)
    simpa [toString_eq] using hstatement
  · have hstatement := hread (by simpa using hsemicolon) (Expression.read?_sum hsource hamount)
    simpa [toString_eq] using hstatement

/-- The statement of an instruction is read as what it does, whatever follows it. -/
theorem read?_statement (h : insn.Means effect) :
    ∃ text, insn.statement? = some text ∧
      ∀ rest, Effect.read? (text.toList ++ rest) = some effect := by
  cases h with
  | @constant target constant word hmnemonic hoperands htarget hconstant =>
      refine ⟨s!"{target} = {constant};", ?_, fun rest => ?_⟩
      · rcases hmnemonic with hmnemonic | hmnemonic <;>
          simp [statement?, binaryOperator?, operandAt, hmnemonic, hoperands]
      · have hsemicolon := (IsAtom.constant hconstant).not_mem (c := ';') (by simp)
        have hstar := (IsAtom.constant hconstant).not_mem (c := '*') (by simp)
        have hread := (Effect.read?_assignment htarget hsemicolon rest).trans
          (Effect.readAssignment?_value htarget (fun rest heq => hstar (heq ▸ List.mem_cons_self))
            (IsAtom.constant hconstant).read?_eq)
        simpa [toString_eq] using hread
  | @add target source amount word hmnemonic hoperands htarget hsource hamount =>
      refine ⟨additionText target source amount, ?_, read?_addition htarget hsource hamount⟩
      simp [statement?, binaryOperator?, operandAt, hmnemonic, hoperands]
  | @load target base offset word hmnemonic hoperands htarget hbase hoffset =>
      refine ⟨s!"{target} = *({effectiveAddress base offset});", ?_, fun rest => ?_⟩
      · simp [statement?, binaryOperator?, operandAt, hmnemonic, hoperands]
      · have hclose := Instruction.not_mem_effectiveAddress hbase hoffset (c := ')') (by simp)
        have hsemicolon := Instruction.not_mem_effectiveAddress hbase hoffset (c := ';') (by simp)
        have hread := (Effect.read?_assignment htarget (by simp [hsemicolon]) rest).trans
          (Effect.readAssignment?_load htarget hclose
            (Expression.read?_effectiveAddress hbase hoffset))
        simpa [toString_eq] using hread
  | @store source base offset word hmnemonic hoperands hsource hbase hoffset =>
      refine ⟨s!"*({effectiveAddress base offset}) = {source};", ?_, fun rest => ?_⟩
      · simp [statement?, binaryOperator?, operandAt, hmnemonic, hoperands]
      · have hclose := Instruction.not_mem_effectiveAddress hbase hoffset (c := ')') (by simp)
        have hsemicolon := Instruction.not_mem_effectiveAddress hbase hoffset (c := ';') (by simp)
        have hsource' := (IsAtom.register hsource).not_mem (c := ';') (by simp)
        have hread := (Effect.read?_of_not_mem (by simp [hsemicolon, hsource']) rest).trans
          (Effect.readStatement?_store hclose (Expression.read?_effectiveAddress hbase hoffset)
            (.register hsource))
        simpa [toString_eq] using hread

theorem read?_commentedStatement (h : insn.Means effect) :
    ∃ text, insn.commentedStatement? = some text ∧ Effect.read? text.toList = some effect := by
  obtain ⟨text, htext, hread⟩ := h.read?_statement
  have hplain := hread []
  rw [List.append_nil] at hplain
  rw [commentedStatement?, htext, Option.map_some]
  refine ⟨_, rfl, ?_⟩
  split
  · next comment _ =>
    split
    · exact hplain
    · have hcommented := hread ("  // ".toList ++ comment.toList)
      simpa [toString_eq] using hcommented
  · exact hplain

end Instruction.Means

/-! ## Replacements -/

theorem Effect.read?_increment {amount : Operand} {step : Word} (hbase : base.isRegister = true)
    (hoffset : offset.value? = some word) (hamount : amount.value? = some step) :
    Effect.read? s!"*({base} + {offset}) += {amount};".toList =
      some (.increment ⟨some base, word⟩ ⟨none, step⟩) := by
  have hbase' := (IsAtom.register hbase).not_mem (c := ';') (by simp)
  have hoffset' := (IsAtom.constant hoffset).not_mem (c := ';') (by simp)
  have hamount' := (IsAtom.constant hamount).not_mem (c := ';') (by simp)
  have hclose : ')' ∉ base.toList ++ ' ' :: '+' :: ' ' :: offset.toList := by
    have hbase' := (IsAtom.register hbase).not_mem (c := ')') (by simp)
    have hoffset' := (IsAtom.constant hoffset).not_mem (c := ')') (by simp)
    simp [hbase', hoffset']
  have hread := (Effect.read?_of_not_mem (by simp [hbase', hoffset', hamount']) []).trans
    (Effect.readStatement?_increment hclose (Expression.read?_sum hbase hoffset)
      (.constant hamount))
  simpa [toString_eq] using hread

theorem Effect.read?_registerWrite {text : List Char} (hmarks : ∀ c ∈ [';', ','], c ∉ text)
    (htext : Expression.read? text = some address) (hvalue : IsAtom operand value) :
    Effect.read? ("REG_WRITE(".toList ++ text ++ ", ".toList ++ operand.toList ++ ");".toList) =
      some (.store address value) := by
  have hcomma := hmarks ',' (by simp)
  have hsemicolon := hmarks ';' (by simp)
  have hoperand := hvalue.not_mem (c := ';') (by simp)
  have hread := (Effect.read?_of_not_mem (by simp [hsemicolon, hoperand]) []).trans
    (Effect.readStatement?_registerWrite hcomma htext hvalue)
  simpa using hread

theorem Effect.read?_registerWrite_constant {place : Operand} (hplace : place.value? = some word)
    (hvalue : IsAtom operand value) :
    Effect.read? s!"REG_WRITE({place}, {operand});".toList = some (.store ⟨none, word⟩ value) := by
  have hread := Effect.read?_registerWrite (fun c hc => (IsAtom.constant hplace).not_mem (by grind))
    (IsAtom.constant hplace).read?_eq hvalue
  simpa [toString_eq] using hread

theorem Effect.read?_registerWrite_sum (hbase : base.isRegister = true)
    (hoffset : offset.value? = some word) (hvalue : IsAtom operand value) :
    Effect.read? s!"REG_WRITE({base} + {offset}, {operand});".toList =
      some (.store ⟨some base, word⟩ value) := by
  have hmarks : ∀ c ∈ [';', ','], c ∉ base.toList ++ ' ' :: '+' :: ' ' :: offset.toList := by
    intro c hc
    have hbase := (IsAtom.register hbase).not_mem (c := c) (by grind)
    have hoffset := (IsAtom.constant hoffset).not_mem (c := c) (by grind)
    have hplus : ∀ c ∈ [';', ','], c ≠ ' ' ∧ c ≠ '+' := by simp
    simp [hbase, hoffset, hplus c hc]
  have hread := Effect.read?_registerWrite hmarks (Expression.read?_sum hbase hoffset) hvalue
  simpa [toString_eq] using hread

end FirmwareLift
