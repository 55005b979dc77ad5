import FirmwareLift.Proofs.Pseudocode.Idiom
import FirmwareLift.Pseudocode.Walk
import Mathlib.Data.List.Basic

/-!
# Partition of bodies

The statements of a body stand for consecutive parts of it, in order: for what a match replaces, or
for single instructions. Every instruction is in one of the parts, and the one that ends the block
is in none.
-/

namespace FirmwareLift

variable {library : IdiomLibrary} {window body : List Instruction} {found : Match}

/-! ## Matches -/

namespace Shape

theorem consumed_of_gpioCall? (h : gpioCall? window = some found) :
    found.consumed = 3 ∧ 3 ≤ window.length := by
  unfold gpioCall? at h
  split at h
  · simp only [Option.bind_eq_bind, Option.bind_eq_some_iff] at h
    obtain ⟨_, -, _, -, h⟩ := h
    split at h
    · obtain rfl := Option.some.inj h
      exact ⟨rfl, by simp⟩
    · cases h
  · cases h

theorem consumed_of_registerWrite? (h : registerWrite? window = some found) :
    found.consumed = 2 ∧ 2 ≤ window.length := by
  unfold registerWrite? at h
  split at h
  · simp only [Option.bind_eq_bind, Option.bind_eq_some_iff] at h
    obtain ⟨_, -, h⟩ := h
    split at h
    · split at h
      · obtain rfl := Option.some.inj h
        exact ⟨rfl, by simp⟩
      · cases h
    · cases h
  · cases h

theorem consumed_of_primitiveCall? (h : primitiveCall? window = some found) :
    found.consumed = 2 ∧ 2 ≤ window.length := by
  unfold primitiveCall? at h
  split at h
  · simp only [Option.bind_eq_bind, Option.bind_eq_some_iff] at h
    obtain ⟨_, -, h⟩ := h
    repeat' split at h
    all_goals cases h
    all_goals exact ⟨rfl, by simp⟩
  · cases h

theorem consumed_of_match? (h : match? window = some found) :
    1 ≤ found.consumed ∧ found.consumed ≤ window.length := by
  rw [match?, Option.or_eq_some_iff, Option.or_eq_some_iff] at h
  rcases h with h | ⟨-, h | ⟨-, h⟩⟩
  · have hconsumed := consumed_of_gpioCall? h
    omega
  · have hconsumed := consumed_of_registerWrite? h
    omega
  · have hconsumed := consumed_of_primitiveCall? h
    omega

end Shape

theorem Idiom.consumed_of_match? {idiom : Idiom} (h : idiom.match? window = some found) :
    1 ≤ found.consumed ∧ found.consumed ≤ window.length := by
  obtain ⟨hfits, hconsumed, -⟩ := Idiom.match?_eq_some h
  obtain ⟨hne, hprefix⟩ := Idiom.fits_iff.1 hfits
  rw [hconsumed, length]
  exact ⟨List.length_pos_iff.2 hne, by simpa using hprefix.length_le⟩

/-- A match replaces at least one instruction, and none that is not in the window. -/
theorem IdiomLibrary.consumed_of_match? (h : library.match? window = some found) :
    1 ≤ found.consumed ∧ found.consumed ≤ window.length := by
  rw [match?, Option.or_eq_some_iff] at h
  rcases h with h | ⟨-, h⟩
  · obtain ⟨idiom, -, hidiom⟩ := List.exists_of_findSome?_eq_some h
    exact Idiom.consumed_of_match? hidiom
  · exact Shape.consumed_of_match? h

/-! ## Single instructions -/

namespace Instruction

variable {insn : Instruction}

theorem statement?_eq_none_iff :
    insn.statement? = none ↔ insn.mnemonic = "nop" ∨ insn.mnemonic = "entry" := by
  constructor
  · intro h
    unfold statement? at h
    split at h
    · cases h
    · split at h
      case h_1 hmnemonic => exact .inl hmnemonic
      case h_2 hmnemonic => exact .inr hmnemonic
      all_goals cases h
  · rintro (h | h) <;> simp [statement?, binaryOperator?, h]

/--
How an instruction is written that no match replaces: `nop` and `entry` not at all, others as their
statement, with the comment behind it unless it is that of a call.
-/
inductive WrittenAs (insn : Instruction) : Option String → Prop where
  | nothing : insn.mnemonic = "nop" ∨ insn.mnemonic = "entry" → WrittenAs insn none
  | statement {text : String} : insn.statement? = some text →
      insn.comment = none ∨ insn.isCall = true → WrittenAs insn (some text)
  | commented {text comment : String} : insn.statement? = some text →
      insn.comment = some comment → insn.isCall = false →
        WrittenAs insn (some s!"{text}  // {comment}")

theorem writtenAs_commentedStatement? (insn : Instruction) :
    insn.WrittenAs insn.commentedStatement? := by
  rw [commentedStatement?]
  cases htext : insn.statement? with
  | none => exact .nothing (statement?_eq_none_iff.1 htext)
  | some text =>
      rw [Option.map_some]
      cases hcomment : insn.comment with
      | none => exact .statement htext (.inl hcomment)
      | some comment =>
          cases hcall : insn.isCall with
          | true => exact .statement htext (.inr hcall)
          | false => exact .commented htext hcomment hcall

theorem WrittenAs.eq_commentedStatement? {line : Option String} (h : insn.WrittenAs line) :
    line = insn.commentedStatement? := by
  cases h with
  | nothing hmnemonic => rw [commentedStatement?, statement?_eq_none_iff.2 hmnemonic, Option.map_none]
  | statement htext hplain =>
      rcases hplain with hcomment | hcall
      · simp [commentedStatement?, htext, hcomment]
      · cases hcomment : insn.comment <;> simp [commentedStatement?, htext, hcomment, hcall]
  | commented htext hcomment hcall => simp [commentedStatement?, htext, hcomment, hcall]

end Instruction

/-! ## Bodies -/

namespace IdiomLibrary

/-- Cuts a body, from its start on, into what a match replaces and into single instructions. -/
inductive Partitions (library : IdiomLibrary) : List Instruction → List Stretch → Prop where
  | nil : Partitions library [] []
  | replaced {part rest : List Instruction} {found : Match} {run : List Stretch} :
      library.match? (part ++ rest) = some found → part ≠ [] → part.length = found.consumed →
        Partitions library rest run →
          Partitions library (part ++ rest) (⟨part, some found.statement⟩ :: run)
  | single {insn : Instruction} {rest : List Instruction} {line : Option String}
      {run : List Stretch} :
      library.match? (insn :: rest) = none → insn.WrittenAs line → Partitions library rest run →
        Partitions library (insn :: rest) (⟨[insn], line⟩ :: run)

theorem partitions_stretches (library : IdiomLibrary) (body : List Instruction) :
    library.Partitions body (library.stretches body) := by
  fun_induction stretches library body with
  | case1 => exact .nil
  | case2 insn rest found hfound ih =>
      obtain ⟨hpos, hle⟩ := consumed_of_match? hfound
      rw [List.length_cons] at hle
      have hbody : (insn :: rest.take (found.consumed - 1)) ++ rest.drop (found.consumed - 1) =
          insn :: rest := by simp
      have hpart := Partitions.replaced (hbody ▸ hfound) (List.cons_ne_nil _ _)
        (by simp only [List.length_cons, List.length_take]; omega) ih
      rwa [hbody] at hpart
  | case3 insn rest hnone ih => exact .single hnone insn.writtenAs_commentedStatement? ih

theorem Partitions.eq_stretches {run : List Stretch} (h : library.Partitions body run) :
    run = library.stretches body := by
  induction h with
  | nil => simp [stretches]
  | @replaced part rest found run hfound hne hlength _ ih =>
      obtain ⟨insn, more, rfl⟩ := List.exists_cons_of_ne_nil hne
      have hmore : found.consumed - 1 = more.length := by simp [← hlength]
      rw [List.cons_append] at hfound ⊢
      rw [stretches]
      simp [hfound, hmore, ih]
  | single hnone hline _ ih =>
      rw [stretches]
      simp [hnone, hline.eq_commentedStatement?, ih]

theorem Partitions.ne_nil {run : List Stretch} (h : library.Partitions body run) :
    ∀ s ∈ run, s.instructions ≠ [] := by
  induction h with
  | nil => simp
  | replaced _ hne _ _ ih => exact List.forall_mem_cons.2 ⟨hne, ih⟩
  | single _ _ _ ih => exact List.forall_mem_cons.2 ⟨List.cons_ne_nil _ _, ih⟩

end IdiomLibrary

theorem Block.body_append_control? (b : Block) : b.body ++ b.control?.toList = b.instructions := by
  rw [body]
  cases hcontrol : b.control? with
  | none => simp
  | some last =>
      have hlast : b.instructions.getLast? = some last := (Option.filter_eq_some_iff.1 hcontrol).1
      simp [List.dropLast_append_getLast? last hlast]

/--
A body has one partition, which holds all its instructions in order, and whose statements are the
lines of the body. It leaves the instruction that ends the statements of a block to the ending.
-/
theorem bodies_partitioned (library : IdiomLibrary) :
    (∀ body, ∃! run, library.Partitions body run) ∧
      (∀ body, ∃ run, library.Partitions body run ∧ run.flatMap (·.instructions) = body ∧
        (∀ s ∈ run, s.instructions ≠ []) ∧
          library.statements body = run.filterMap (·.statement)) ∧
      ∀ b : Block, ∃ run, library.Partitions b.body run ∧
        run.flatMap (·.instructions) ++ b.control?.toList = b.instructions ∧
          ∀ (g : FlowGraph) (depth : Nat) (returnsValue : Bool),
            (Visit.first b depth).lines g library returnsValue =
              (run.filterMap (·.statement) ++ (Ending.ofBlock g b).texts returnsValue).map
                (Line.mk depth) := by
  have hunique : ∀ body, ∃! run, library.Partitions body run := fun body =>
    ⟨_, library.partitions_stretches body, fun run hrun => hrun.eq_stretches⟩
  refine ⟨hunique, fun body => ?_, fun b => ?_⟩
  · have hrun := library.partitions_stretches body
    exact ⟨_, hrun, library.flatMap_stretches body, hrun.ne_nil, rfl⟩
  · refine ⟨_, library.partitions_stretches b.body, ?_, fun g depth returnsValue => rfl⟩
    rw [library.flatMap_stretches, b.body_append_control?]

end FirmwareLift
