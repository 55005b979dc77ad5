import FirmwareLift.Proofs.Numeral
import FirmwareLift.Proofs.OrderedSet
import FirmwareLift.Proofs.Tiling
import Mathlib.Order.Bounds.Defs

/-!
# Discovered functions

The starts of functions are told by the image, the entry and the known functions. Discovery finds
the lowest of them, and each function stops where the next start is, whether that one is found or
not.
-/

namespace FirmwareLift

namespace Descriptor

variable (d : Descriptor) (image : Image) (entry : Address)

/-- What may start a function. -/
inductive Candidate : Address → Prop where
  | prologue {insn : Instruction} : insn ∈ image.allInstructions d.knownFunctions →
      insn.mnemonic = "entry" → Candidate insn.address
  | called {insn : Instruction} {target : Address} :
      insn ∈ image.allInstructions d.knownFunctions → insn.isCall → insn.target? = some target →
        Candidate target
  | padded {ret insn : Instruction} {padding : List Instruction} :
      ret :: (padding ++ [insn]) <:+: image.allInstructions d.knownFunctions → ret.isReturn →
        padding ≠ [] → (∀ p ∈ padding, p.isNop) → ¬ insn.isNop → Candidate insn.address
  | entry : Candidate entry
  | known {address : Address} : address ∈ d.knownFunctions.values → Candidate address

/-- The candidates that are addresses of words in the image. -/
def starts : Set Address :=
  {a | d.Candidate image entry a ∧ a.toNat % 4 = 0 ∧ image.base ≤ a ∧
    a.toNat < image.base.toNat + image.bytes.size}

/-- What the functions that are found have to do with the starts. -/
structure Discovers (found : List Bounds) : Prop where
  length_eq :
    found.length = min (d.starts image entry).ncard d.analysis.maxFunctions.toNat
  ascending : found.Pairwise fun f g => f.start < g.start
  start_mem : ∀ f ∈ found, f.start ∈ d.starts image entry
  lowest : ∀ a ∈ d.starts image entry, (∀ f ∈ found, f.start ≠ a) → ∀ f ∈ found, f.start < a
  stop_eq : ∀ f ∈ found,
    IsLeast {a ∈ d.starts image entry | f.start < a} f.stop ∨
      (∀ a ∈ d.starts image entry, a ≤ f.start) ∧
        f.stop.toNat =
          min (min (f.start.toNat + d.analysis.lastFunctionWindow.toNat)
            (image.base.toNat + image.bytes.size)) (UInt32.size - 1)
  adjacent : found.IsChain fun f g => f.stop = g.start
  disjoint : found.Pairwise fun f g =>
    ∀ a, ¬ ((f.start ≤ a ∧ a < f.stop) ∧ g.start ≤ a ∧ a < g.stop)

end Descriptor

/-! ## Padding -/

theorem Instruction.isReturn_of_isNop {insn : Instruction} (h : insn.isNop) :
    insn.isReturn = false := by
  rw [isNop, decide_eq_true_eq] at h
  rw [isReturn, kind, h]
  decide

/-- Behind padding, of which there is some unless `padded` says so, an instruction stands at `a`. -/
def BehindPadding (padded : Bool) (insns : List Instruction) (a : Address) : Prop :=
  ∃ padding insn rest, insns = padding ++ insn :: rest ∧ (∀ p ∈ padding, p.isNop) ∧
    (padded = true ∨ padding ≠ []) ∧ ¬ insn.isNop ∧ insn.address = a

/-- Behind a return and padding, an instruction stands at `a`. -/
def BehindReturn (insns : List Instruction) (a : Address) : Prop :=
  ∃ ret padding insn, ret :: (padding ++ [insn]) <:+: insns ∧ ret.isReturn ∧ padding ≠ [] ∧
    (∀ p ∈ padding, p.isNop) ∧ ¬ insn.isNop ∧ insn.address = a

section

variable {insn : Instruction} {rest : List Instruction} {a : Address} {padded : Bool}

theorem behindPadding_cons_of_isNop (h : insn.isNop) :
    BehindPadding padded (insn :: rest) a ↔ BehindPadding true rest a := by
  constructor
  · rintro ⟨padding, last, behind, heq, hnop, -, hlast, ha⟩
    cases padding with
    | nil =>
        obtain ⟨rfl, -⟩ := List.cons.inj heq
        exact absurd h hlast
    | cons p padding =>
        obtain ⟨rfl, rfl⟩ := List.cons.inj heq
        exact ⟨padding, last, behind, rfl, fun p hp => hnop p (List.mem_cons_of_mem _ hp), .inl rfl,
          hlast, ha⟩
  · rintro ⟨padding, last, behind, rfl, hnop, -, hlast, ha⟩
    exact ⟨insn :: padding, last, behind, rfl, List.forall_mem_cons.2 ⟨h, hnop⟩,
      .inr (List.cons_ne_nil _ _), hlast, ha⟩

theorem behindPadding_cons_of_not_isNop (h : ¬ insn.isNop) :
    BehindPadding padded (insn :: rest) a ↔ padded = true ∧ insn.address = a := by
  constructor
  · rintro ⟨padding, last, behind, heq, hnop, hpadded, -, ha⟩
    cases padding with
    | nil =>
        obtain ⟨rfl, -⟩ := List.cons.inj heq
        exact ⟨hpadded.resolve_right (· rfl), ha⟩
    | cons p padding =>
        obtain ⟨rfl, -⟩ := List.cons.inj heq
        exact absurd (hnop insn List.mem_cons_self) h
  · rintro ⟨hpadded, ha⟩
    exact ⟨[], insn, rest, rfl, by simp, .inl hpadded, h, ha⟩

theorem behindReturn_cons :
    BehindReturn (insn :: rest) a ↔
      insn.isReturn = true ∧ BehindPadding false rest a ∨ BehindReturn rest a := by
  constructor
  · rintro ⟨ret, padding, last, hrun, hret, hne, hnop, hlast, ha⟩
    rcases List.infix_cons_iff.1 hrun with hfront | hrun
    · obtain ⟨rfl, behind, hbehind⟩ := List.cons_prefix_cons.1 hfront
      refine .inl ⟨hret, padding, last, behind, ?_, hnop, .inr hne, hlast, ha⟩
      rw [← hbehind, List.append_assoc, List.singleton_append]
    · exact .inr ⟨ret, padding, last, hrun, hret, hne, hnop, hlast, ha⟩
  · rintro (⟨hret, padding, last, behind, rfl, hnop, hne, hlast, ha⟩ | h)
    · refine ⟨insn, padding, last, List.IsPrefix.isInfix ⟨behind, ?_⟩, hret,
        hne.resolve_left (by decide), hnop, hlast, ha⟩
      simp
    · obtain ⟨ret, padding, last, hrun, h⟩ := h
      exact ⟨ret, padding, last, List.infix_cons_iff.2 (.inr hrun), h⟩

end

theorem Image.mem_paddedStarts {behindReturn padded : Bool} {insns : List Instruction}
    {a : Address} :
    a ∈ paddedStarts behindReturn padded insns ↔
      behindReturn = true ∧ BehindPadding padded insns a ∨ BehindReturn insns a := by
  induction insns generalizing behindReturn padded with
  | nil => simp [paddedStarts, BehindPadding, BehindReturn]
  | cons insn rest ih =>
      rw [paddedStarts, behindReturn_cons]
      by_cases hnop : insn.isNop
      · -- Padding is no return: what came before it still counts.
        have hret := Instruction.isReturn_of_isNop hnop
        rw [if_pos hnop, ih, behindPadding_cons_of_isNop hnop, hret]
        cases behindReturn <;> simp
      · rw [if_neg hnop, List.mem_append, ih, behindPadding_cons_of_not_isNop hnop]
        cases behindReturn <;> cases padded <;> simp [eq_comm (a := a)]

/-! ## Words and calls -/

namespace Image

variable {image : Image} {symbols : SymbolTable} {a : Address} {word : Word}

theorem mem_words :
    (a, word) ∈ image.words ↔
      ∃ i, image.base.toNat + 4 * i = a.toNat ∧ image.wordAtOffset? (4 * i) = some word := by
  rw [words, List.mem_filterMap]
  constructor
  · rintro ⟨i, -, hi⟩
    simp only at hi
    split at hi
    · next hlt =>
        obtain ⟨w, hw, heq⟩ := Option.map_eq_some_iff.1 hi
        obtain ⟨rfl, rfl⟩ := Prod.mk.inj heq
        exact ⟨i, (UInt32.toNat_ofNat_of_lt' hlt).symm, hw⟩
    · cases hi
  · rintro ⟨i, ha, hword⟩
    have hsize := image.toNat_wordAtOffset? (4 * i)
    rw [hword] at hsize
    have hlt : 4 * i + 4 ≤ image.bytes.size := by
      by_contra h
      rw [if_neg h] at hsize
      cases hsize
    refine ⟨i, List.mem_range.2 (by omega), ?_⟩
    simp only [ha]
    rw [if_pos a.toNat_lt, hword, UInt32.ofNat_toNat]
    rfl

theorem decode_of_mem_words (hbase : image.base.toNat % 4 = 0) (h : (a, word) ∈ image.words) :
    image.decode symbols a = image.decodeWord symbols a word := by
  obtain ⟨i, ha, hword⟩ := mem_words.1 h
  have haligned : a % Instruction.width = 0 := mod_width_eq_zero_iff.2 (by omega)
  have hle : image.base ≤ a := UInt32.le_iff_toNat_le.2 (by omega)
  have hoffset : (a - image.base).toNat = 4 * i := by
    rw [UInt32.toNat_sub_of_le _ _ hle]
    omega
  have hsize : 4 * i < image.bytes.size := by
    by_contra hsize
    rw [wordAtOffset?, Array.getElem?_eq_none (Nat.not_lt.1 hsize)] at hword
    cases hword
  rw [decode, decode?, fetch, if_neg (not_not.2 haligned), hoffset, hword,
    if_neg (not_or.2 ⟨UInt32.not_lt.2 hle, Nat.not_le.2 hsize⟩)]
  rfl

theorem decodeWord_mem (hbase : image.base.toNat % 4 = 0) (h : (a, word) ∈ image.words) :
    image.decodeWord symbols a word ∈ image.allInstructions symbols := by
  rw [← decode_of_mem_words hbase h]
  exact List.mem_map_of_mem h

theorem toNat_limit (hsize : image.bytes.size < UInt32.size) :
    image.limit.toNat = min (image.base.toNat + image.bytes.size) (UInt32.size - 1) := by
  rw [Image.limit, Nat.mod_eq_of_lt hsize, UInt32.toNat_ofNat_of_lt']
  rw [UInt32.size]
  omega

end Image

/-- The place that the bits of a call lead to. -/
def Word.callTarget (word : Word) (a : Address) : Address :=
  relativeAddress a (signExtend 24 (word.field 8 24))

theorem Encoding.call?_eq_some {t : Nat} (h : t < 4) (offset : Int) :
    ∃ mnemonic, Kind.ofMnemonic mnemonic = .call ∧
      call? t offset = some ⟨mnemonic, [.target offset]⟩ := by
  match t, h with
  | 0, _ => exact ⟨"call0", by decide, rfl⟩
  | 1, _ => exact ⟨"call4", by decide, rfl⟩
  | 2, _ => exact ⟨"call8", by decide, rfl⟩
  | 3, _ => exact ⟨"call12", by decide, rfl⟩

theorem Encoding.form?_call {word : Word} (hformat : word.field 0 4 = 5)
    (hwindow : word.field 4 4 < 4) :
    ∃ mnemonic, Kind.ofMnemonic mnemonic = .call ∧
      form? word = some ⟨mnemonic, [.target (signExtend 24 (word.field 8 24))]⟩ := by
  have hne : word ≠ 0 := by
    rintro rfl
    exact absurd hformat (by decide)
  simp only [form?, if_neg hne, hformat]
  exact call?_eq_some hwindow _

theorem SymbolTable.mem_values_of_shownAt? {symbols : SymbolTable} {a : Address} {name : String}
    (h : symbols.shownAt? a = some name) : a ∈ symbols.values := by
  obtain ⟨entry, hentry, -⟩ := List.mem_map.1 (List.mem_of_getLast? h)
  obtain ⟨hmem, heq⟩ := List.mem_filter.1 hentry
  rw [decide_eq_true_eq] at heq
  exact List.mem_map.2 ⟨entry, hmem, heq⟩

theorem toNat_relativeAddress_mod (a : Address) (offset : Int) :
    (relativeAddress a offset).toNat % 4 = a.toNat % 4 := by
  have hoffset : (UInt32.ofInt (4 * offset)).toNat % 4 = 0 := by
    simp only [UInt32.ofInt, UInt32.toNat_ofNat']
    omega
  have hwidth : Instruction.width.toNat = 4 := rfl
  rw [relativeAddress, UInt32.toNat_add, UInt32.toNat_add, hwidth]
  omega

namespace Descriptor

variable {d : Descriptor} {image : Image} {entry a : Address} {word : Word}

theorem candidate_callTarget (hbase : image.base.toNat % 4 = 0) (h : (a, word) ∈ image.words)
    (hformat : word.field 0 4 = 5) (hwindow : word.field 4 4 < 4) :
    d.Candidate image entry (word.callTarget a) := by
  obtain ⟨mnemonic, hkind, hform⟩ := Encoding.form?_call hformat hwindow
  -- A target that shows its name is not read back from the text, but it is a known function.
  cases hshown : d.knownFunctions.shownAt? (word.callTarget a) with
  | some name => exact .known (SymbolTable.mem_values_of_shownAt? hshown)
  | none =>
      have hinsn : image.decodeWord d.knownFunctions a word =
          { address := a, word, mnemonic,
            operands := [Text.Numeral.hex (word.callTarget a)] } := by
        rw [Word.callTarget] at hshown
        simp [Image.decodeWord, hform, Encoding.OperandForm.text, hshown, Word.callTarget]
      have hcall : (image.decodeWord d.knownFunctions a word).isCall := by
        rw [hinsn, Instruction.isCall, Instruction.kind, hkind]
        rfl
      refine .called (Image.decodeWord_mem hbase h) hcall ?_
      rw [Instruction.target?, hcall, Bool.or_true, if_pos rfl, hinsn]
      simp only [List.getLast?_singleton, Option.bind_some, Operand.value?_hex]

theorem toNat_callTarget_mod (hbase : image.base.toNat % 4 = 0) (h : (a, word) ∈ image.words) :
    (word.callTarget a).toNat % 4 = 0 := by
  obtain ⟨i, ha, -⟩ := Image.mem_words.1 h
  rw [Word.callTarget, toNat_relativeAddress_mod]
  omega

theorem mem_scanStarts :
    a ∈ image.scanStarts d.knownFunctions ↔
      ∃ insn ∈ image.allInstructions d.knownFunctions,
        insn.mnemonic = "entry" ∧ insn.address = a ∨
          insn.isCall = true ∧ insn.target? = some a := by
  rw [Image.scanStarts, OrderedSet.mem_ofList, List.mem_filterMap]
  refine exists_congr fun insn => and_congr_right fun _ => ?_
  rw [Image.startFrom?]
  by_cases hentry : insn.mnemonic = "entry"
  · have hcall : insn.isCall = false := by
      rw [Instruction.isCall, Instruction.kind, hentry]
      decide
    simp [hentry, hcall]
  · rw [if_neg hentry]
    split <;> simp_all

theorem candidate_iff :
    d.Candidate image entry a ↔
      (a = entry ∨ a ∈ image.scanStarts d.knownFunctions ∨
        a ∈ image.paddingStarts d.knownFunctions) ∨ a ∈ d.knownFunctions.values := by
  rw [mem_scanStarts, Image.paddingStarts, Image.mem_paddedStarts]
  constructor
  · rintro (⟨hinsn, hentry⟩ | ⟨hinsn, hcall, htarget⟩ | ⟨hrun, hret, hne, hnop, hlast⟩ | _ |
      hknown)
    · exact .inl (.inr (.inl ⟨_, hinsn, .inl ⟨hentry, rfl⟩⟩))
    · exact .inl (.inr (.inl ⟨_, hinsn, .inr ⟨hcall, htarget⟩⟩))
    · exact .inl (.inr (.inr (.inr ⟨_, _, _, hrun, hret, hne, hnop, hlast, rfl⟩)))
    · exact .inl (.inl rfl)
    · exact .inr hknown
  · rintro ((rfl | ⟨insn, hinsn, ⟨hentry, rfl⟩ | ⟨hcall, htarget⟩⟩ |
      ⟨hfalse, -⟩ | ⟨_, _, _, hrun, hret, hne, hnop, hlast, rfl⟩) | hknown)
    · exact .entry
    · exact .prologue hinsn hentry
    · exact .called hinsn hcall htarget
    · cases hfalse
    · exact .padded hrun hret hne hnop hlast
    · exact .known hknown

theorem mem_functionStarts (hsize : image.bytes.size < UInt32.size) :
    a ∈ d.functionStarts image entry ↔ a ∈ d.starts image entry := by
  have hlt := a.toNat_lt
  have hlimit := Image.toNat_limit hsize
  rw [UInt32.size] at hlimit
  rw [functionStarts, OrderedSet.mem_filter, Image.hasStart_iff, UInt32.lt_iff_toNat_lt,
    OrderedSet.mem_insertAll, OrderedSet.mem_insert, OrderedSet.mem_insertAll, ← candidate_iff]
  refine and_congr_right fun _ => ?_
  constructor
  · rintro ⟨hbase, hbelow, haligned⟩
    exact ⟨haligned, hbase, by omega⟩
  · rintro ⟨haligned, hbase, hbelow⟩
    exact ⟨hbase, by omega, haligned⟩

end Descriptor

/-! ## Ranges -/

section

variable {lastStop : Address → Address} {starts : List Address} {range : Address × Address}

theorem map_fst_ranges (lastStop : Address → Address) (starts : List Address) :
    (ranges lastStop starts).map (·.1) = starts := by
  fun_induction ranges lastStop starts with
  | case1 => rfl
  | case2 start => rfl
  | case3 start next rest ih => rw [List.map_cons, ih]

theorem isChain_ranges (lastStop : Address → Address) (starts : List Address) :
    (ranges lastStop starts).IsChain fun r t => r.2 = t.1 := by
  fun_induction ranges lastStop starts with
  | case1 => exact .nil
  | case2 start => exact .singleton _
  | case3 start next rest ih =>
      rw [List.isChain_cons]
      refine ⟨fun range hrange => ?_, ih⟩
      have hfirst := congrArg List.head? (map_fst_ranges lastStop (next :: rest))
      rw [List.head?_map, Option.mem_def.1 hrange] at hfirst
      exact (Option.some.inj hfirst).symm

/-- A range stops at the next start, if there is one. -/
theorem stop_of_mem_ranges (hascending : starts.Pairwise (· < ·))
    (h : range ∈ ranges lastStop starts) :
    IsLeast {a | a ∈ starts ∧ range.1 < a} range.2 ∨
      (∀ a ∈ starts, a ≤ range.1) ∧ range.2 = lastStop range.1 := by
  fun_induction ranges lastStop starts with
  | case1 => cases h
  | case2 start =>
      obtain rfl := List.mem_singleton.1 h
      exact .inr ⟨fun a ha => by rw [List.mem_singleton.1 ha]; exact UInt32.le_refl _, rfl⟩
  | case3 start next rest ih =>
      -- `start` lies below all ranges behind its own, so these do not see it.
      rw [List.pairwise_cons] at hascending
      obtain ⟨hstart, hrest⟩ := hascending
      rcases List.mem_cons.1 h with rfl | h
      · refine .inl ⟨⟨List.mem_cons_of_mem _ List.mem_cons_self, hstart _ List.mem_cons_self⟩, ?_⟩
        rintro a ⟨ha, hlt⟩
        rcases List.mem_cons.1 ha with rfl | ha
        · exact absurd hlt (UInt32.lt_irrefl _)
        rcases List.mem_cons.1 ha with rfl | ha
        · exact UInt32.le_refl _
        · exact UInt32.le_of_lt ((List.pairwise_cons.1 hrest).1 a ha)
      · have hmem : range.1 ∈ next :: rest := by
          rw [← map_fst_ranges lastStop (next :: rest)]
          exact List.mem_map_of_mem h
        have hbelow := hstart range.1 hmem
        rcases ih hrest h with ⟨⟨hstop, hlt⟩, hleast⟩ | ⟨hlast, hstop⟩
        · refine .inl ⟨⟨List.mem_cons_of_mem _ hstop, hlt⟩, ?_⟩
          rintro a ⟨ha, hlt⟩
          rcases List.mem_cons.1 ha with rfl | ha
          · exact absurd (UInt32.lt_trans hbelow hlt) (UInt32.lt_irrefl _)
          · exact hleast ⟨ha, hlt⟩
        · exact .inr ⟨List.forall_mem_cons.2 ⟨UInt32.le_of_lt hbelow, hlast⟩, hstop⟩

end

namespace Descriptor

variable (d : Descriptor) (image : Image) (entry : Address)

theorem map_start_discover :
    (d.discover image entry).map (·.start) =
      (d.functionStarts image entry).toList.take d.analysis.maxFunctions.toNat := by
  have hstarts := map_fst_ranges (d.lastStop image) (d.functionStarts image entry).toList
  rw [discover_eq, List.map_map, ← hstarts, ← List.map_take]
  rfl

theorem mem_allRanges {f : Bounds} (hf : f ∈ d.discover image entry) :
    (f.start, f.stop) ∈ d.allRanges image entry := by
  rw [discover_eq] at hf
  obtain ⟨range, hrange, rfl⟩ := List.mem_map.1 hf
  exact List.mem_of_mem_take hrange

variable {image}

theorem ncard_starts (hsize : image.bytes.size < UInt32.size) :
    (d.starts image entry).ncard = (d.functionStarts image entry).toList.length :=
  ncard_eq_length (OrderedSet.nodup_toList _) fun _ => mem_functionStarts hsize

theorem toNat_lastStop (hsize : image.bytes.size < UInt32.size) (start : Address) :
    (d.lastStop image start).toNat =
      min (min (start.toNat + d.analysis.lastFunctionWindow.toNat)
        (image.base.toNat + image.bytes.size)) (UInt32.size - 1) := by
  have hsum : (saturatingAdd start d.analysis.lastFunctionWindow).toNat =
      min (start.toNat + d.analysis.lastFunctionWindow.toNat) (UInt32.size - 1) := by
    rw [saturatingAdd, UInt32.toNat_ofNat_of_lt']
    rw [UInt32.size]
    omega
  have hmin : ∀ a b : Address, (min a b).toNat = min a.toNat b.toNat := by
    intro a b
    rw [Std.min_eq_if, apply_ite UInt32.toNat, Nat.min_def]
    exact if_congr UInt32.le_iff_toNat_le rfl rfl
  rw [lastStop, hmin, hsum, Image.toNat_limit hsize]
  omega

theorem stop_of_mem_discover (hsize : image.bytes.size < UInt32.size) {f : Bounds}
    (hf : f ∈ d.discover image entry) :
    IsLeast {a ∈ d.starts image entry | f.start < a} f.stop ∨
      (∀ a ∈ d.starts image entry, a ≤ f.start) ∧
        f.stop.toNat =
          min (min (f.start.toNat + d.analysis.lastFunctionWindow.toNat)
            (image.base.toNat + image.bytes.size)) (UInt32.size - 1) := by
  have hset : {a ∈ d.starts image entry | f.start < a} =
      {a | a ∈ (d.functionStarts image entry).toList ∧ f.start < a} := by
    ext a
    exact and_congr_left fun _ => (mem_functionStarts hsize).symm
  rw [hset, ← d.toNat_lastStop hsize f.start]
  rcases stop_of_mem_ranges (d.functionStarts image entry).ascending
    (d.mem_allRanges image entry hf) with hleast | ⟨hlast, hstop⟩
  · exact .inl hleast
  · exact .inr ⟨fun a ha => hlast a ((mem_functionStarts hsize).2 ha), congrArg _ hstop⟩

theorem discovers_discover (hsize : image.bytes.size < UInt32.size) :
    d.Discovers image entry (d.discover image entry) := by
  have hstarts := d.map_start_discover image entry
  have hascending := (d.functionStarts image entry).ascending
  have hmem : ∀ f ∈ d.discover image entry, f.start ∈ d.starts image entry := by
    intro f hf
    rw [← mem_functionStarts hsize]
    apply List.mem_of_mem_take
    rw [← hstarts]
    exact List.mem_map_of_mem hf
  have hfound : (d.discover image entry).Pairwise fun f g => f.start < g.start := by
    rw [← List.pairwise_map, hstarts]
    exact hascending.sublist (List.take_sublist _ _)
  constructor
  case length_eq =>
    rw [d.ncard_starts entry hsize, Nat.min_comm, ← List.length_take, ← hstarts, List.length_map]
  case ascending => exact hfound
  case start_mem => exact hmem
  case lowest =>
    intro a ha hne f hf
    rw [← mem_functionStarts hsize, ← OrderedSet.mem_toList,
      ← List.take_append_drop d.analysis.maxFunctions.toNat (d.functionStarts image entry).toList,
      List.mem_append, ← hstarts] at ha
    rw [← List.take_append_drop d.analysis.maxFunctions.toNat
      (d.functionStarts image entry).toList, List.pairwise_append, ← hstarts] at hascending
    rcases ha with ha | ha
    · obtain ⟨g, hg, rfl⟩ := List.mem_map.1 ha
      exact absurd rfl (hne g hg)
    · exact hascending.2.2 _ (List.mem_map_of_mem hf) _ ha
  case stop_eq => exact fun f hf => d.stop_of_mem_discover entry hsize hf
  case adjacent =>
    rw [discover_eq, List.isChain_map]
    exact (isChain_ranges _ _).take _
  case disjoint =>
    -- A later start is a start above this one, so the function stops there at the latest.
    refine hfound.imp_of_mem fun {f g} hf hg hlt a ⟨⟨_, hbelow⟩, habove, _⟩ => ?_
    have hstop : f.stop ≤ g.start := by
      rcases d.stop_of_mem_discover entry hsize hf with hleast | ⟨hlast, -⟩
      · exact hleast.2 ⟨hmem g hg, hlt⟩
      · exact absurd (hlast _ (hmem g hg)) (UInt32.not_le.2 hlt)
    exact UInt32.lt_irrefl _ (UInt32.lt_of_lt_of_le hbelow (UInt32.le_trans hstop habove))

/-- A higher limit on the number of functions only appends to those that are found. -/
theorem discover_mono {more : UInt64} (h : d.analysis.maxFunctions ≤ more) :
    d.discover image entry <+:
      { d with analysis := { d.analysis with maxFunctions := more } }.discover image entry := by
  rw [discover_eq]
  exact (List.take_prefix_take_left (UInt64.le_iff_toNat_le.1 h)).map _

end Descriptor

end FirmwareLift
