import FirmwareLift.Proofs.Pseudocode.Idiom
import FirmwareLift.Proofs.Pseudocode.Reading

/-!
# Substituted statements

One statement stands for several instructions where an idiom or a shape matches. It leaves the
memory as they do if it is about one place in memory, and if nothing that it leaves out is stored
later.
-/

namespace FirmwareLift

/-- Instructions and the effect of the statement that stands for them. -/
inductive Replaces : List Instruction → Effect → Prop where
  | single {insn : Instruction} {e : Effect} : insn.effect? = some e → Replaces [insn] e
  | increment {load add store : Instruction} {loaded sum source : Operand} {amount : Word}
      {address place value : Expression} :
      load.effect? = some (.load loaded address) →
        add.effect? = some (.assign sum ⟨some source, amount⟩) →
          store.effect? = some (.store place value) →
            Replaces [load, add, store] (.increment address ⟨none, amount⟩)
  | constantBase {load store : Instruction} {register : Operand} {word offset : Word}
      {value : Expression} :
      load.effect? = some (.assign register ⟨none, word⟩) →
        store.effect? = some (.store ⟨some register, offset⟩ value) →
          Replaces [load, store] (.store ⟨none, word + offset⟩ value)
  | constantValue {load store : Instruction} {register : Operand} {word : Word}
      {address : Expression} :
      load.effect? = some (.assign register ⟨none, word⟩) →
        store.effect? = some (.store address ⟨some register, 0⟩) →
          Replaces [load, store] (.store address ⟨none, word⟩)
  | constantLost {load store : Instruction} {register : Operand} {word : Word}
      {address value : Expression} :
      load.effect? = some (.assign register ⟨none, word⟩) →
        store.effect? = some (.store address value) →
          Replaces [load, store] (.store address value)

def Stretch.effect? (s : Stretch) : Option Effect :=
  s.statement.bind fun statement => Effect.read? statement.toList

/-- Three instructions add a constant to a word in memory. -/
def IsIncrement (insns : List Instruction) : Prop :=
  ∃ loaded sum amount address, insns.map (·.effect?) =
    [some (.load loaded address), some (.assign sum ⟨some loaded, amount⟩),
      some (.store address ⟨some sum, 0⟩)]

/-- The registers that instructions assign and the effect that replaces them does not. -/
def Effect.leftOut (e : Effect) (insns : List Instruction) : List Operand :=
  (insns.filterMap fun insn => insn.effect?.bind target?).filter fun r => e.target? ≠ some r

/-- The registers whose values are wrong behind an effect, from those in front of it. -/
def Effect.staleBehind (e : Effect) (stale : List Operand) : List Operand :=
  match e.target? with
  | none => stale
  | some r => if ∃ x ∈ e.reads, x ∈ stale then r :: stale else stale.filter (· ≠ r)

/--
No statement stores to an address or a value that it takes from a stale register. Registers become
stale where a statement leaves out their assignment or assigns them what comes from a stale one.
-/
def StoresFresh : (stale : List Operand) → List Stretch → Prop
  | _, [] => True
  | stale, s :: rest =>
    match s.effect? with
    | none => False
    | some e =>
      (e.target? = none → ∀ r ∈ e.reads, r ∉ e.leftOut s.instructions ++ stale) ∧
        StoresFresh (e.staleBehind (e.leftOut s.instructions ++ stale)) rest

instance StoresFresh.decidable :
    (stale : List Operand) → (run : List Stretch) → Decidable (StoresFresh stale run)
  | _, [] => inferInstanceAs (Decidable True)
  | stale, s :: rest =>
    match h : s.effect? with
    | none => isFalse (by rw [StoresFresh, h]; exact id)
    | some e =>
      have := decidable (e.staleBehind (e.leftOut s.instructions ++ stale)) rest
      decidable_of_iff
        ((e.target? = none → ∀ r ∈ e.reads, r ∉ e.leftOut s.instructions ++ stale) ∧
          StoresFresh (e.staleBehind (e.leftOut s.instructions ++ stale)) rest)
        (by rw [StoresFresh, h])

variable {insn : Instruction} {window body : List Instruction} {found : Match}

/-! ## Matches -/

theorem Idiom.mnemonics_of_fits {idiom : Idiom} {first second third : String}
    (hidiom : idiom.mnemonics = [first, second, third]) (h : idiom.fits window = true) :
    ∃ load add store rest, window = load :: add :: store :: rest ∧ load.mnemonic = first ∧
      add.mnemonic = second ∧ store.mnemonic = third := by
  obtain ⟨-, mnemonics, hmnemonics⟩ := Idiom.fits_iff.1 h
  rw [hidiom] at hmnemonics
  obtain ⟨load, _, rfl, hload, hmnemonics⟩ := List.map_eq_cons_iff.1 hmnemonics.symm
  obtain ⟨add, _, rfl, hadd, hmnemonics⟩ := List.map_eq_cons_iff.1 hmnemonics
  obtain ⟨store, rest, rfl, hstore, -⟩ := List.map_eq_cons_iff.1 hmnemonics
  exact ⟨load, add, store, rest, rfl, hload, hadd, hstore⟩

theorem exists_replaces_of_idiom {idiom : Idiom} (hidiom : idiom ∈ IdiomLibrary.common)
    (hwindow : ∀ insn ∈ window, ∃ e, insn.effect? = some e)
    (h : idiom.match? window = some found) :
    ∃ e, Effect.read? found.statement.toList = some e ∧
      Replaces (window.take found.consumed) e := by
  obtain ⟨hfits, hconsumed, template, hparse, hfill⟩ := Idiom.match?_eq_some h
  obtain rfl := List.mem_singleton.1 hidiom
  obtain rfl := Option.some.inj (Template.parse?_common.symm.trans hparse)
  obtain ⟨load, add, store, rest, rfl, hload, hadd, hstore⟩ := Idiom.mnemonics_of_fits rfl hfits
  simp only [List.forall_mem_cons] at hwindow
  obtain ⟨⟨eload, heload⟩, ⟨eadd, headd⟩, ⟨estore, hestore⟩, -⟩ := hwindow
  obtain ⟨loaded, base, offset, word, hops, hbase, hoffset, rfl⟩ :=
    (Instruction.means_of_effect? heload).of_l32i hload
  obtain ⟨sum, source, amount, step, hops', hamount, rfl⟩ :=
    (Instruction.means_of_effect? headd).of_addi hadd
  obtain ⟨_, _, _, _, -, -, -, -, rfl⟩ := (Instruction.means_of_effect? hestore).of_s32i hstore
  rw [hconsumed]
  refine ⟨_, ?_, .increment heload headd hestore⟩
  have hstatement : some found.statement.toList =
      some s!"*({base} + {offset}) += {amount};".toList := by
    rw [← Option.map_some, ← hfill]
    simp [Template.fill?, Template.Piece.resolve?, hops, hops', toString_eq]
  rw [Option.some.inj hstatement]
  exact Effect.read?_increment hbase hoffset hamount

theorem Shape.gpioCall?_eq_none (h : ∀ insn ∈ window, insn.isCall = false) :
    Shape.gpioCall? window = none := by
  unfold Shape.gpioCall?
  split
  · next first second call rest =>
    have hcall : call.isCall = false := h call (by simp)
    simp [hcall]
  · rfl

theorem Shape.primitiveCall?_eq_none (h : ∀ insn ∈ window, insn.isCall = false) :
    Shape.primitiveCall? window = none := by
  unfold Shape.primitiveCall?
  split
  · next load call rest =>
    have hcall : call.isCall = false := h call (by simp)
    simp [hcall]
  · rfl

theorem Shape.registerWrite?_eq_some (h : Shape.registerWrite? window = some found) :
    ∃ load store rest register constant value base offset more,
      window = load :: store :: rest ∧ load.loaded? = some (register, constant) ∧
        store.isStore = true ∧ store.operands = value :: base :: offset :: more ∧
          found.consumed = 2 ∧ found.statement =
            if base = register then s!"REG_WRITE({registerAddress constant offset}, {value});"
            else if value = register then s!"REG_WRITE({base} + {offset}, {constant});"
            else s!"REG_WRITE({base} + {offset}, {value});" := by
  unfold Shape.registerWrite? at h
  split at h
  · next load store rest =>
    obtain ⟨⟨register, constant⟩, hloaded, h⟩ := Option.bind_eq_some_iff.1 h
    simp only at h
    split at h
    · next value base offset more hoperands =>
      split at h
      · next hstore =>
        rw [Bool.and_eq_true] at hstore
        obtain rfl := Option.some.inj h
        exact ⟨load, store, rest, register, constant, value, base, offset, more, rfl, hloaded,
          hstore.1, hoperands, rfl, rfl⟩
      · cases h
    · cases h
  · cases h

theorem exists_replaces_of_registerWrite?
    (hwindow : ∀ insn ∈ window, ∃ e, insn.effect? = some e)
    (h : Shape.registerWrite? window = some found) :
    ∃ e, Effect.read? found.statement.toList = some e ∧
      Replaces (window.take found.consumed) e := by
  obtain ⟨load, store, rest, register, constant, value, base, offset, more, rfl, hloaded, hstore,
    hoperands, hconsumed, hstatement⟩ := Shape.registerWrite?_eq_some h
  simp only [List.forall_mem_cons] at hwindow
  obtain ⟨⟨eload, heload⟩, ⟨estore, hestore⟩, -⟩ := hwindow
  obtain ⟨word, hconstant, rfl⟩ := (Instruction.means_of_effect? heload).of_loaded? hloaded
  have hmeans := Instruction.means_of_effect? hestore
  obtain ⟨_, _, _, distance, hoperands', hvalue, hbase, hoffset, rfl⟩ :=
    hmeans.of_s32i (hmeans.mnemonic_of_isStore hstore)
  obtain ⟨rfl, rfl, rfl, -⟩ : _ ∧ _ ∧ _ ∧ _ := by
    simpa using hoperands.symm.trans hoperands'
  rw [hconsumed, hstatement]
  split
  · next heq =>
    have hplace : Operand.value? (Shape.registerAddress constant offset) =
        some (word + distance) := by
      simp [Shape.registerAddress, hconstant, hoffset, Operand.value?_hex8]
    exact ⟨_, Effect.read?_registerWrite_constant hplace (.register hvalue),
      .constantBase heload (heq ▸ hestore)⟩
  split
  · next heq =>
    exact ⟨_, Effect.read?_registerWrite_sum hbase hoffset (.constant hconstant),
      .constantValue heload (heq ▸ hestore)⟩
  · exact ⟨_, Effect.read?_registerWrite_sum hbase hoffset (.register hvalue),
      .constantLost heload hestore⟩

theorem exists_replaces_of_shape (hwindow : ∀ insn ∈ window, ∃ e, insn.effect? = some e)
    (h : Shape.match? window = some found) :
    ∃ e, Effect.read? found.statement.toList = some e ∧
      Replaces (window.take found.consumed) e := by
  have hcalls : ∀ insn ∈ window, insn.isCall = false := fun insn hinsn =>
    (Instruction.means_of_effect? (hwindow insn hinsn).choose_spec).isCall
  -- The two other shapes end in a call.
  rw [Shape.match?, Shape.gpioCall?_eq_none hcalls, Shape.primitiveCall?_eq_none hcalls,
    Option.none_or, Option.or_none] at h
  exact exists_replaces_of_registerWrite? hwindow h

theorem exists_replaces_of_match? (hwindow : ∀ insn ∈ window, ∃ e, insn.effect? = some e)
    (h : IdiomLibrary.common.match? window = some found) :
    ∃ e, Effect.read? found.statement.toList = some e ∧
      Replaces (window.take found.consumed) e := by
  rw [IdiomLibrary.match?] at h
  cases hidiom : IdiomLibrary.common.findSome? (Idiom.match? window) with
  | none =>
      rw [hidiom, Option.none_or] at h
      exact exists_replaces_of_shape hwindow h
  | some first =>
      rw [hidiom, Option.some_or] at h
      obtain rfl := Option.some.inj h
      obtain ⟨idiom, hmem, hmatch⟩ := List.exists_of_findSome?_eq_some hidiom
      exact exists_replaces_of_idiom hmem hwindow hmatch

/-- Every stretch has a statement that can be read and that replaces its instructions. -/
theorem exists_replaces_of_mem_stretches (hbody : ∀ insn ∈ body, ∃ e, insn.effect? = some e) :
    ∀ s ∈ IdiomLibrary.common.stretches body,
      ∃ e, s.effect? = some e ∧ Replaces s.instructions e := by
  generalize hlibrary : IdiomLibrary.common = library
  fun_induction IdiomLibrary.stretches library body with
  | case1 => simp
  | case2 insn rest found hfound ih =>
      obtain ⟨e, hread, hreplaces⟩ := exists_replaces_of_match? hbody (hlibrary ▸ hfound)
      -- What is replaced is not empty, so a match takes the first instruction.
      have hconsumed : (insn :: rest).take found.consumed =
          insn :: rest.take (found.consumed - 1) := by
        cases hzero : found.consumed with
        | zero =>
            rw [hzero] at hreplaces
            cases hreplaces
        | succ n => rfl
      obtain ⟨-, hrest⟩ := List.forall_mem_cons.1 hbody
      exact List.forall_mem_cons.2 ⟨⟨e, hread, hconsumed ▸ hreplaces⟩,
        ih fun insn hinsn => hrest insn (List.mem_of_mem_drop hinsn)⟩
  | case3 insn rest _ ih =>
      obtain ⟨⟨e, he⟩, hrest⟩ := List.forall_mem_cons.1 hbody
      obtain ⟨text, htext, hread⟩ := (Instruction.means_of_effect? he).read?_commentedStatement
      refine List.forall_mem_cons.2 ⟨⟨e, ?_, .single he⟩, ih hrest⟩
      rw [Stretch.effect?, htext]
      exact hread

/-! ## Runs -/

/-- Two machines with the same memory and the same values in all registers that are not stale. -/
structure Agree (stale : List Operand) (m m' : WordMachine) : Prop where
  memory : m.memory = m'.memory
  registers : ∀ r, r ∉ stale → m.registers r = m'.registers r

namespace Agree

variable {stale : List Operand} {m m' : WordMachine} {e : Effect}

theorem eval_eq (h : Agree stale m m') {expression : Expression}
    (hfresh : ∀ r ∈ expression.register?.toList, r ∉ stale) :
    expression.eval m = expression.eval m' := by
  obtain ⟨register?, offset⟩ := expression
  cases register? with
  | none => rfl
  | some r =>
      have hr : m.registers r = m'.registers r := h.registers r (hfresh r (by simp))
      simp [Expression.eval, hr]

theorem mono (h : Agree stale m m') {more : List Operand} (hmore : ∀ r ∈ stale, r ∈ more) :
    Agree more m m' :=
  ⟨h.memory, fun r hr => h.registers r (mt (hmore r) hr)⟩

theorem assign_left (h : Agree stale m m') (register : Operand) (word : Word) :
    Agree (register :: stale) (m.assign register word) m' where
  memory := h.memory
  registers r hr := by
    obtain ⟨hne, hstale⟩ := not_or.1 (mt List.mem_cons.2 hr)
    rw [← h.registers r hstale]
    exact if_neg hne

theorem assign (h : Agree stale m m') {register : Operand} {word word' : Word}
    (hword : (∀ x ∈ e.reads, x ∉ stale) → word = word') (htarget : e.target? = some register) :
    Agree (e.staleBehind stale) (m.assign register word) (m'.assign register word') where
  memory := h.memory
  registers r hr := by
    rw [Effect.staleBehind, htarget] at hr
    simp only [Machine.assign]
    simp only at hr
    split at hr
    · obtain ⟨hne, hstale⟩ := not_or.1 (mt List.mem_cons.2 hr)
      rw [if_neg hne, if_neg hne]
      exact h.registers r hstale
    · next hreads =>
      split
      · exact hword fun x hx hstale => hreads ⟨x, hx, hstale⟩
      · next hne => exact h.registers r fun hstale => hr (by simp [hstale, hne])

theorem store (h : Agree stale m m') {place place' : Address} {word word' : Word}
    (hplace : place = place') (hword : word = word') :
    Agree stale { m with memory := m.memory.store place word }
      { m' with memory := m'.memory.store place' word' } := by
  subst hplace hword
  exact ⟨by simp only [h.memory], h.registers⟩

theorem perform (h : Agree stale m m')
    (hfresh : e.target? = none → ∀ r ∈ e.reads, r ∉ stale) :
    Agree (e.staleBehind stale) (e.perform m) (e.perform m') := by
  cases e with
  | assign target value => exact h.assign h.eval_eq rfl
  | load target address =>
      refine h.assign (fun hreads => ?_) rfl
      rw [h.memory, h.eval_eq hreads]
  | store address value =>
      have hreads := hfresh rfl
      exact h.store (h.eval_eq fun r hr => hreads r (List.mem_append_left _ hr))
        (h.eval_eq fun r hr => hreads r (List.mem_append_right _ hr))
  | increment address amount =>
      have hreads := hfresh rfl
      have haddress := h.eval_eq fun r hr => hreads r (List.mem_append_left _ hr)
      have hamount := h.eval_eq fun r hr => hreads r (List.mem_append_right _ hr)
      exact h.store haddress (by rw [h.memory, haddress, hamount])

end Agree

variable {stale : List Operand} {m m' : WordMachine} {e : Effect} {s : Stretch}

theorem Expression.eval_assign (m : WordMachine) (register : Operand) (word offset : Word) :
    Expression.eval ⟨some register, offset⟩ (m.assign register word) = word + offset := by
  simp [Expression.eval, Machine.assign]

theorem Expression.eval_constant (word : Word) : Expression.eval ⟨none, word⟩ m = word := by
  simp [Expression.eval]

theorem Agree.constant (h : Agree stale m m') (register : Operand) (word : Word) :
    Agree (register :: stale) ((Effect.assign register ⟨none, word⟩).perform m) m' :=
  h.assign_left register _

/-- A word is incremented by loading it, adding to it and storing it at the same place. -/
theorem Agree.increment (h : Agree stale m m') {loaded sum : Operand} {amount : Word}
    {address : Expression}
    (hfresh : ∀ r ∈ address.register?.toList, r ∉ [loaded, sum] ++ stale) :
    Agree ([loaded, sum] ++ stale)
      ((Effect.store address ⟨some sum, 0⟩).perform
        ((Effect.assign sum ⟨some loaded, amount⟩).perform
          ((Effect.load loaded address).perform m)))
      ((Effect.increment address ⟨none, amount⟩).perform m') := by
  have hknown : Agree ([loaded, sum] ++ stale)
      ((Effect.assign sum ⟨some loaded, amount⟩).perform ((Effect.load loaded address).perform m))
      m' := ((h.assign_left loaded _).assign_left sum _).mono (by simp; tauto)
  have hplace : address.eval m = address.eval m' :=
    h.eval_eq fun r hr hstale => hfresh r hr (List.mem_append_right _ hstale)
  refine hknown.store (hknown.eval_eq hfresh) ?_
  simp only [Effect.perform, Expression.eval_assign, Expression.eval_constant, h.memory, hplace,
    UInt32.add_zero]

theorem Effect.leftOut_pair {load store : Instruction} {register : Operand}
    {value place word : Expression} (hload : load.effect? = some (.assign register value))
    (hstore : store.effect? = some (.store place word)) (htarget : e.target? = none) :
    e.leftOut [load, store] = [register] := by
  rw [Effect.leftOut, htarget]
  simp [hload, hstore, Effect.target?]

theorem executeAll?_cons (h : insn.effect? = some e) (rest : List Instruction) :
    executeAll? (insn :: rest) m = executeAll? rest (e.perform m) := by
  simp [executeAll?, h]

/-- A statement does what its instructions do, but for the registers that it leaves stale. -/
theorem Replaces.agree {insns : List Instruction} (h : Replaces insns e)
    (hincrement : insns.length = 3 → IsIncrement insns)
    (hfresh : e.target? = none → ∀ r ∈ e.reads, r ∉ e.leftOut insns ++ stale)
    (hagree : Agree stale m m') :
    ∃ after, executeAll? insns m = some after ∧
      Agree (e.staleBehind (e.leftOut insns ++ stale)) after (e.perform m') := by
  cases h with
  | @single insn _ heffect =>
      have hleft : e.leftOut [insn] = [] := by
        cases htarget : e.target? <;> simp [Effect.leftOut, heffect, htarget]
      rw [hleft, List.nil_append] at hfresh ⊢
      exact ⟨_, executeAll?_cons heffect [], hagree.perform hfresh⟩
  | @increment load add store loaded sum source amount address place value hload hadd hstore =>
      obtain ⟨_, _, _, _, heffects⟩ := hincrement rfl
      simp only [List.map_cons, List.map_nil, hload, hadd, hstore, List.cons.injEq,
        Option.some.injEq, Effect.load.injEq, Effect.assign.injEq, Effect.store.injEq,
        Expression.mk.injEq, and_true] at heffects
      obtain ⟨⟨rfl, rfl⟩, ⟨rfl, rfl, rfl⟩, rfl, rfl⟩ := heffects
      have hleft : (Effect.increment place ⟨none, amount⟩).leftOut [load, add, store] =
          [source, sum] := by
        simp [Effect.leftOut, hload, hadd, hstore, Effect.target?]
      rw [hleft] at hfresh ⊢
      refine ⟨_, ?_, hagree.increment fun r hr => hfresh rfl r (List.mem_append_left _ hr)⟩
      rw [executeAll?_cons hload, executeAll?_cons hadd, executeAll?_cons hstore]
      rfl
  | @constantBase load store register word offset value hload hstore =>
      rw [Effect.leftOut_pair hload hstore rfl] at hfresh ⊢
      have hknown := hagree.constant register word
      refine ⟨_, (executeAll?_cons hload _).trans (executeAll?_cons hstore _), hknown.store ?_ ?_⟩
      · simp only [Effect.perform, Expression.eval_assign, Expression.eval_constant]
      · exact hknown.eval_eq fun r hr => hfresh rfl r (List.mem_append_right _ hr)
  | @constantValue load store register word address hload hstore =>
      rw [Effect.leftOut_pair hload hstore rfl] at hfresh ⊢
      have hknown := hagree.constant register word
      refine ⟨_, (executeAll?_cons hload _).trans (executeAll?_cons hstore _), hknown.store ?_ ?_⟩
      · exact hknown.eval_eq fun r hr => hfresh rfl r (List.mem_append_left _ hr)
      · simp only [Effect.perform, Expression.eval_assign, Expression.eval_constant,
          UInt32.add_zero]
  | @constantLost load store register word address value hload hstore =>
      rw [Effect.leftOut_pair hload hstore rfl] at hfresh ⊢
      exact ⟨_, (executeAll?_cons hload _).trans (executeAll?_cons hstore _),
        (hagree.constant register word).perform hfresh⟩

/-- The statements of a run of stretches leave the memory as the instructions do. -/
theorem memory_run {run : List Stretch}
    (hreplaces : ∀ s ∈ run, ∃ e, s.effect? = some e ∧ Replaces s.instructions e)
    (hincrements : ∀ s ∈ run, s.instructions.length = 3 → IsIncrement s.instructions)
    (hfresh : StoresFresh stale run) (hagree : Agree stale m m') :
    ∃ after after', executeAll? (run.flatMap (·.instructions)) m = some after ∧
      performStatements? (run.filterMap (·.statement)) m' = some after' ∧
        after.memory = after'.memory := by
  -- Behind every stretch the machines agree but for the registers that are stale there.
  induction run generalizing stale m m' with
  | nil => exact ⟨m, m', rfl, rfl, hagree.memory⟩
  | cons s rest ih =>
      obtain ⟨⟨e, heffect, hfirst⟩, hreplaces⟩ := List.forall_mem_cons.1 hreplaces
      obtain ⟨hincrement, hincrements⟩ := List.forall_mem_cons.1 hincrements
      rw [StoresFresh, heffect] at hfresh
      obtain ⟨text, htext, hread⟩ := Option.bind_eq_some_iff.1 heffect
      obtain ⟨middle, hexecute, hmiddle⟩ := hfirst.agree hincrement hfresh.1 hagree
      obtain ⟨after, after', hexecute', hperform, hmemory⟩ :=
        ih hreplaces hincrements hfresh.2 hmiddle
      refine ⟨after, after', ?_, ?_, hmemory⟩
      · rw [List.flatMap_cons, executeAll?, List.foldlM_append]
        exact Option.bind_eq_some_iff.2 ⟨middle, hexecute, hexecute'⟩
      · rw [List.filterMap_cons_some htext, performStatements?, List.foldlM_cons, hread]
        exact hperform

/--
Where every substituted increment is one, and no store uses a stale register, executing the
statements of a body leaves the same memory as executing its instructions.
-/
theorem memory_statements_eq (hbody : ∀ insn ∈ body, ∃ e, insn.effect? = some e)
    (hincrements : ∀ s ∈ IdiomLibrary.common.stretches body,
      s.instructions.length = 3 → IsIncrement s.instructions)
    (hfresh : StoresFresh [] (IdiomLibrary.common.stretches body)) (m : WordMachine) :
    ∃ after after', executeAll? body m = some after ∧
      performStatements? (IdiomLibrary.common.statements body) m = some after' ∧
        after.memory = after'.memory := by
  have hrun := memory_run (exists_replaces_of_mem_stretches hbody) hincrements hfresh
    (⟨rfl, fun _ _ => rfl⟩ : Agree [] m m)
  rwa [IdiomLibrary.flatMap_stretches] at hrun

/-- All registers and the whole memory hold zeros. -/
def zeroed : WordMachine where
  registers _ := 0
  memory _ := 0

/-- Starts a timer, counts the start in memory, and puts a mark behind the count. -/
def countedStart : List Instruction :=
  [{ address := 0x0, word := 0, mnemonic := "movi", operands := ["a2", "5"] },
    { address := 0x4, word := 0, mnemonic := "s32i", operands := ["a2", "a4", "0"],
      comment := some "TIMER register" },
    { address := 0x8, word := 0, mnemonic := "movi", operands := ["a2", "-1"] },
    { address := 0xc, word := 0, mnemonic := "l32i", operands := ["a3", "a5", "8"] },
    { address := 0x10, word := 0, mnemonic := "addi", operands := ["a3", "a3", "1"] },
    { address := 0x14, word := 0, mnemonic := "s32i", operands := ["a3", "a5", "8"] },
    { address := 0x18, word := 0, mnemonic := "s32i", operands := ["a2", "a5", "12"] }]

theorem countedStart_memory :
    (∀ insn ∈ countedStart, ∃ e, insn.effect? = some e) ∧
      (∀ s ∈ IdiomLibrary.common.stretches countedStart,
        s.instructions.length = 3 → IsIncrement s.instructions) ∧
      StoresFresh [] (IdiomLibrary.common.stretches countedStart) ∧
      ∃ after after', executeAll? countedStart zeroed = some after ∧
        performStatements? (IdiomLibrary.common.statements countedStart) zeroed = some after' ∧
          after.memory = after'.memory := by
  have hbody : ∀ insn ∈ countedStart, ∃ e, insn.effect? = some e := by
    have hsome : ∀ insn ∈ countedStart, insn.effect?.isSome = true := by decide +kernel
    exact fun insn hinsn => Option.isSome_iff_exists.1 (hsome insn hinsn)
  have hstretches : IdiomLibrary.common.stretches countedStart =
      [⟨countedStart.take 2, some "REG_WRITE(a4 + 0, 5);"⟩,
        ⟨(countedStart.drop 2).take 1, some "a2 = -1;"⟩,
        ⟨(countedStart.drop 3).take 3, some "*(a5 + 8) += 1;"⟩,
        ⟨countedStart.drop 6, some "*(a5 + 12) = a2;"⟩] := by decide +kernel
  have hincrements : ∀ s ∈ IdiomLibrary.common.stretches countedStart,
      s.instructions.length = 3 → IsIncrement s.instructions := by
    rw [hstretches]
    simp only [List.forall_mem_cons]
    refine ⟨fun h => absurd h (by decide), fun h => absurd h (by decide), fun _ => ?_,
      fun h => absurd h (by decide), by simp⟩
    exact ⟨"a3", "a3", 1, ⟨some "a5", 8⟩, by decide +kernel⟩
  have hfresh : StoresFresh [] (IdiomLibrary.common.stretches countedStart) := by
    rw [hstretches]
    decide +kernel
  exact ⟨hbody, hincrements, hfresh, memory_statements_eq hbody hincrements hfresh zeroed⟩

/-- The mnemonics of an increment around operands that have nothing to do with each other. -/
def unrelated : List Instruction :=
  [{ address := 0x0, word := 0, mnemonic := "l32i", operands := ["a3", "a4", "8"] },
    { address := 0x4, word := 0, mnemonic := "addi", operands := ["a5", "a6", "1"] },
    { address := 0x8, word := 0, mnemonic := "s32i", operands := ["a7", "a8", "12"] }]

theorem unrelated_memory :
    (∀ insn ∈ unrelated, ∃ e, insn.effect? = some e) ∧
      ¬ ∃ after after', executeAll? unrelated zeroed = some after ∧
        performStatements? (IdiomLibrary.common.statements unrelated) zeroed = some after' ∧
          after.memory = after'.memory := by
  constructor
  · have hsome : ∀ insn ∈ unrelated, insn.effect?.isSome = true := by decide +kernel
    exact fun insn hinsn => Option.isSome_iff_exists.1 (hsome insn hinsn)
  · rintro ⟨after, after', hexecute, hperform, hmemory⟩
    have hstatements : IdiomLibrary.common.statements unrelated =
        ["*(a4 + 8) += 1;"] := by decide +kernel
    have hcounted : (executeAll? unrelated zeroed).map (·.memory 8) ≠
        (performStatements? ["*(a4 + 8) += 1;"] zeroed).map (·.memory 8) := by decide +kernel
    rw [← hstatements, hexecute, hperform, Option.map_some, Option.map_some, hmemory] at hcounted
    exact hcounted rfl

end FirmwareLift
