import FirmwareLift.Proofs.Discovery

/-!
# Starts behind padding

The scan for padding keeps two flags, yet it finds a word by what stands before it in the image: the
word just before is padding, and the nearest one that is not is a return.
-/

namespace FirmwareLift

namespace Image

/-- The address of a whole word of the image. Words past the end of the address space have none. -/
def HasWord (image : Image) (a : Address) : Prop :=
  ∃ index, a.toNat = image.base.toNat + 4 * index ∧ 4 * (index + 1) ≤ image.bytes.size

/-- The image without the bytes that lie past the end of the address space. -/
def withinAddresses (image : Image) : Image :=
  { image with bytes := image.bytes.take (UInt32.size - image.base.toNat) }

variable (image : Image) (symbols : SymbolTable)

/--
The word is no padding, the word just before it is, and the nearest earlier word that is no padding is
a return.
-/
structure FollowsPadding (a : Address) : Prop where
  word : image.HasWord a
  not_nop : ¬(image.decode symbols a).isNop
  padded : ∃ p, image.HasWord p ∧ p.toNat + 4 = a.toNat ∧ (image.decode symbols p).isNop
  returned : ∃ r, IsGreatest {b | image.HasWord b ∧ b < a ∧ ¬(image.decode symbols b).isNop} r ∧
    (image.decode symbols r).isReturn

/-- The scan lists the words that follow padding, and words without an address add nothing. -/
structure FindsPadded : Prop where
  ascending : (image.paddingStarts symbols).Pairwise (· < ·)
  mem_iff : ∀ a, a ∈ image.paddingStarts symbols ↔ image.FollowsPadding symbols a
  within : image.withinAddresses.paddingStarts symbols = image.paddingStarts symbols

/-! ## Addresses -/

variable {image symbols} {a b : Address}

/-- A word with an earlier one has a word just before it, which is not before the earlier one. -/
theorem HasWord.exists_previous (ha : image.HasWord a) (hb : image.HasWord b) (hlt : b < a) :
    ∃ p, image.HasWord p ∧ p.toNat + 4 = a.toNat ∧ b ≤ p := by
  obtain ⟨i, hi, hsize⟩ := ha
  obtain ⟨j, hj, -⟩ := hb
  rw [UInt32.lt_iff_toNat_lt] at hlt
  have hp : (UInt32.ofNat (a.toNat - 4)).toNat = a.toNat - 4 :=
    UInt32.toNat_ofNat_of_lt' (Nat.lt_of_le_of_lt (Nat.sub_le _ _) a.toNat_lt)
  refine ⟨.ofNat (a.toNat - 4), ⟨i - 1, ?_, ?_⟩, ?_, ?_⟩
  · omega
  · omega
  · omega
  · rw [UInt32.le_iff_toNat_le]
    omega

theorem mem_map_fst_words : a ∈ image.words.map Prod.fst ↔ image.HasWord a := by
  have hsome : ∀ index, (∃ word, image.wordAtOffset? (4 * index) = some word) ↔
      4 * (index + 1) ≤ image.bytes.size := by
    intro index
    have hsize := congrArg Option.isSome (image.toNat_wordAtOffset? (4 * index))
    rw [Option.isSome_map] at hsize
    rw [← Option.isSome_iff_exists, hsize]
    split
    · next h => exact iff_of_true rfl h
    · next h => exact iff_of_false Bool.false_ne_true h
  constructor
  · intro h
    obtain ⟨⟨_, word⟩, hword, rfl⟩ := List.mem_map.1 h
    obtain ⟨index, haddress, hword⟩ := mem_words.1 hword
    exact ⟨index, haddress.symm, (hsome index).1 ⟨word, hword⟩⟩
  · rintro ⟨index, haddress, hsize⟩
    obtain ⟨word, hword⟩ := (hsome index).2 hsize
    exact List.mem_map.2 ⟨(a, word), mem_words.2 ⟨index, haddress.symm, hword⟩, rfl⟩

theorem pairwise_words (image : Image) : (image.words.map Prod.fst).Pairwise (· < ·) := by
  rw [List.pairwise_map, words]
  refine List.pairwise_lt_range.filterMap _ fun i j hlt w hw v hv => ?_
  obtain ⟨hi, hw⟩ := Option.ite_none_right_eq_some.1 hw
  obtain ⟨hj, hv⟩ := Option.ite_none_right_eq_some.1 hv
  obtain ⟨_, -, rfl⟩ := Option.map_eq_some_iff.1 hw
  obtain ⟨_, -, rfl⟩ := Option.map_eq_some_iff.1 hv
  rw [UInt32.lt_iff_toNat_lt, UInt32.toNat_ofNat_of_lt' hi, UInt32.toNat_ofNat_of_lt' hj]
  omega

theorem allInstructions_eq (image : Image) (symbols : SymbolTable) :
    image.allInstructions symbols = (image.words.map Prod.fst).map (image.decode symbols) := by
  rw [List.map_map]
  rfl

/-! ## The scan -/

theorem paddedStarts_sublist (behindReturn padded : Bool) (insns : List Instruction) :
    (paddedStarts behindReturn padded insns).Sublist (insns.map (·.address)) := by
  induction insns generalizing behindReturn padded with
  | nil => exact .slnil
  | cons insn rest ih =>
      rw [paddedStarts, List.map_cons]
      split
      · exact (ih _ _).cons _
      · cases behindReturn && padded with
        | true => exact (ih _ _).cons_cons _
        | false => exact (ih _ _).cons _

theorem pairwise_paddingStarts (image : Image) (symbols : SymbolTable) :
    (image.paddingStarts symbols).Pairwise (· < ·) := by
  have haddresses : (image.allInstructions symbols).map (·.address) = image.words.map Prod.fst := by
    rw [allInstructions_eq, List.map_map]
    exact List.map_id'' (fun a => image.address_decode symbols a) _
  refine (pairwise_words image).sublist ?_
  rw [← haddresses]
  exact paddedStarts_sublist _ _ _

end Image

section

variable {addresses front back : List Address} {a b : Address} {decode : Address → Instruction}

theorem mem_front_iff (h : (front ++ a :: back).Pairwise (· < ·)) :
    b ∈ front ↔ b ∈ front ++ a :: back ∧ b < a := by
  obtain ⟨-, hback, hfront⟩ := List.pairwise_append.1 h
  constructor
  · intro hb
    exact ⟨List.mem_append_left _ hb, hfront b hb a List.mem_cons_self⟩
  · rintro ⟨hb, hlt⟩
    rcases List.mem_append.1 hb with hb | hb
    · exact hb
    rcases List.mem_cons.1 hb with rfl | hb
    · exact absurd hlt (UInt32.lt_irrefl _)
    · have hgt := List.rel_of_pairwise_cons hback hb
      exact absurd (UInt32.lt_trans hlt hgt) (UInt32.lt_irrefl _)

/-- What stands behind a return, as a run of addresses. -/
theorem behindReturn_map (hdecode : ∀ a, (decode a).address = a) :
    BehindReturn (addresses.map decode) a ↔
      ∃ front r padding back, addresses = front ++ r :: (padding ++ a :: back) ∧
        (decode r).isReturn ∧ padding ≠ [] ∧ (∀ p ∈ padding, (decode p).isNop) ∧
          ¬(decode a).isNop := by
  constructor
  · rintro ⟨ret, padding, insn, hrun, hret, hne, hnop, hinsn, rfl⟩
    obtain ⟨run, ⟨front, back, rfl⟩, hmap⟩ := List.infix_map_iff.1 hrun
    obtain ⟨r, behind, rfl, rfl, hbehind⟩ := List.map_eq_cons_iff.1 hmap.symm
    obtain ⟨padding, last, rfl, rfl, hlast⟩ := List.map_eq_append_iff.1 hbehind
    obtain ⟨a, rfl, rfl⟩ := List.map_eq_singleton_iff.1 hlast
    rw [hdecode]
    exact ⟨front, r, padding, back, by simp, hret, mt List.map_eq_nil_iff.2 hne,
      List.forall_mem_map.1 hnop, hinsn⟩
  · rintro ⟨front, r, padding, back, rfl, hret, hne, hnop, ha⟩
    refine ⟨decode r, padding.map decode, decode a, ⟨front.map decode, back.map decode, by simp⟩,
      hret, mt List.map_eq_nil_iff.1 hne, List.forall_mem_map.2 hnop, ha, hdecode a⟩

end

namespace Image

variable {image : Image} {symbols : SymbolTable} {front padding back : List Address} {a b r : Address}

theorem mem_before_iff (h : image.words.map Prod.fst = front ++ a :: back) :
    b ∈ front ↔ image.HasWord b ∧ b < a := by
  rw [← mem_map_fst_words, h]
  exact mem_front_iff (h ▸ pairwise_words image)

theorem mem_between_iff (h : image.words.map Prod.fst = front ++ r :: (padding ++ a :: back)) :
    b ∈ padding ↔ image.HasWord b ∧ r < b ∧ b < a := by
  have hsplit : image.words.map Prod.fst = (front ++ r :: padding) ++ a :: back := by
    rw [h, List.append_assoc, List.cons_append]
  have hbehind := (List.pairwise_append.1 (h ▸ pairwise_words image)).2.1
  constructor
  · intro hb
    obtain ⟨hword, hlt⟩ := (mem_before_iff hsplit).1 (by simp [hb] : b ∈ front ++ r :: padding)
    exact ⟨hword, List.rel_of_pairwise_cons hbehind (List.mem_append_left _ hb), hlt⟩
  · rintro ⟨hword, hgt, hlt⟩
    rcases List.mem_append.1 ((mem_before_iff hsplit).2 ⟨hword, hlt⟩) with hb | hb
    · have hlt := ((mem_before_iff h).1 hb).2
      exact absurd (UInt32.lt_trans hlt hgt) (UInt32.lt_irrefl _)
    · rcases List.mem_cons.1 hb with rfl | hb
      · exact absurd hgt (UInt32.lt_irrefl _)
      · exact hb

theorem exists_split (hr : image.HasWord r) (ha : image.HasWord a) (hlt : r < a) :
    ∃ front padding back, image.words.map Prod.fst = front ++ r :: (padding ++ a :: back) := by
  obtain ⟨before, back, h⟩ := List.append_of_mem (mem_map_fst_words.2 ha)
  obtain ⟨front, padding, rfl⟩ := List.append_of_mem ((mem_before_iff h).2 ⟨hr, hlt⟩)
  exact ⟨front, padding, back, by rw [h, List.append_assoc, List.cons_append]⟩

theorem followsPadding_of_run (h : image.words.map Prod.fst = front ++ r :: (padding ++ a :: back))
    (hret : (image.decode symbols r).isReturn) (hne : padding ≠ [])
    (hnop : ∀ p ∈ padding, (image.decode symbols p).isNop)
    (ha : ¬(image.decode symbols a).isNop) : image.FollowsPadding symbols a := by
  have hword : image.HasWord a := mem_map_fst_words.1 (by simp [h])
  have hr : image.HasWord r := mem_map_fst_words.1 (by simp [h])
  obtain ⟨q, hq⟩ := List.exists_mem_of_ne_nil padding hne
  obtain ⟨hqword, hrq, hqa⟩ := (mem_between_iff h).1 hq
  refine ⟨hword, ha, ?_, r, ⟨⟨hr, UInt32.lt_trans hrq hqa, ?_⟩, ?_⟩, hret⟩
  · obtain ⟨p, hp, hnext, hqp⟩ := hword.exists_previous hqword hqa
    have hpa : p < a := UInt32.lt_iff_toNat_lt.2 (by omega)
    exact ⟨p, hp, hnext,
      hnop p ((mem_between_iff h).2 ⟨hp, UInt32.lt_of_lt_of_le hrq hqp, hpa⟩)⟩
  · intro hrnop
    rw [Instruction.isReturn_of_isNop hrnop] at hret
    cases hret
  · rintro b ⟨hb, hba, hbnop⟩
    by_contra hle
    exact hbnop (hnop b ((mem_between_iff h).2 ⟨hb, UInt32.not_le.1 hle, hba⟩))

theorem FollowsPadding.exists_run (h : image.FollowsPadding symbols a) :
    ∃ front r padding back, image.words.map Prod.fst = front ++ r :: (padding ++ a :: back) ∧
      (image.decode symbols r).isReturn ∧ padding ≠ [] ∧
        (∀ p ∈ padding, (image.decode symbols p).isNop) ∧ ¬(image.decode symbols a).isNop := by
  obtain ⟨p, hp, hnext, hpnop⟩ := h.padded
  obtain ⟨r, ⟨⟨hr, hra, hrnop⟩, hgreatest⟩, hret⟩ := h.returned
  obtain ⟨front, padding, back, hsplit⟩ := exists_split hr h.word hra
  refine ⟨front, r, padding, back, hsplit, hret, ?_, ?_, h.not_nop⟩
  · -- The word just before is behind the return, because it is not the return.
    obtain ⟨q, hq, hqnext, hrq⟩ := h.word.exists_previous hr hra
    obtain rfl : q = p := UInt32.toNat_inj.1 (by omega)
    have hne : r ≠ q := by
      rintro rfl
      exact hrnop hpnop
    have hlt : r < q := UInt32.lt_of_le_of_ne hrq hne
    exact List.ne_nil_of_mem
      ((mem_between_iff hsplit).2 ⟨hp, hlt, UInt32.lt_iff_toNat_lt.2 (by omega)⟩)
  · intro q hq
    obtain ⟨hqword, hrq, hqa⟩ := (mem_between_iff hsplit).1 hq
    by_contra hqnop
    exact UInt32.lt_irrefl _ (UInt32.lt_of_lt_of_le hrq (hgreatest ⟨hqword, hqa, hqnop⟩))

theorem mem_paddingStarts : a ∈ image.paddingStarts symbols ↔ image.FollowsPadding symbols a := by
  have hscan : a ∈ image.paddingStarts symbols ↔ BehindReturn (image.allInstructions symbols) a := by
    simp [paddingStarts, mem_paddedStarts]
  rw [hscan, allInstructions_eq, behindReturn_map (image.address_decode symbols)]
  constructor
  · rintro ⟨front, r, padding, back, hsplit, hret, hne, hnop, ha⟩
    exact followsPadding_of_run hsplit hret hne hnop ha
  · exact FollowsPadding.exists_run

/-! ## The end of the address space -/

theorem decode_congr {image' : Image} (h : ∀ a, image.fetch a = image'.fetch a) (a : Address) :
    image.decode symbols a = image'.decode symbols a := by
  have htext : ∀ form : Encoding.OperandForm,
      form.text symbols image a = form.text symbols image' a := by
    intro form
    cases form with
    | literal offset => simp only [Encoding.OperandForm.text, h]
    | register _ | unsigned _ | signed _ | target _ => rfl
  have hword : image.decodeWord symbols a = image'.decodeWord symbols a := by
    funext word
    simp only [decodeWord, htext]
  rw [decode, decode, decode?, decode?, h, hword]

theorem size_withinAddresses (image : Image) :
    image.withinAddresses.bytes.size =
      min (UInt32.size - image.base.toNat) image.bytes.size := by
  rw [withinAddresses, Array.take_eq_extract, Array.size_extract, Nat.sub_zero]

theorem getElem?_withinAddresses {index : Nat} (h : image.base.toNat + index < UInt32.size) :
    image.withinAddresses.bytes[index]? = image.bytes[index]? := by
  rw [withinAddresses, Array.take_eq_extract, Array.getElem?_extract, Nat.zero_add]
  split
  · rfl
  · exact (Array.getElem?_eq_none (by omega)).symm

theorem wordAtOffset?_withinAddresses {offset : Nat}
    (h : image.base.toNat + offset + 4 ≤ UInt32.size) :
    image.withinAddresses.wordAtOffset? offset = image.wordAtOffset? offset := by
  rw [wordAtOffset?, wordAtOffset?, getElem?_withinAddresses (by omega),
    getElem?_withinAddresses (by omega), getElem?_withinAddresses (by omega),
    getElem?_withinAddresses (by omega)]

/-- Every word that can be fetched lies within the address space. -/
theorem fetch_withinAddresses (image : Image) (a : Address) :
    image.withinAddresses.fetch a = image.fetch a := by
  by_cases haligned : a.toNat % 4 = 0
  · have hlt := a.toNat_lt
    have hsame : image.withinAddresses.base = image.base := rfl
    rw [fetch, fetch, hsame, if_neg (not_not.2 (mod_width_eq_zero_iff.2 haligned)),
      if_neg (not_not.2 (mod_width_eq_zero_iff.2 haligned))]
    by_cases hbase : a < image.base
    · rw [if_pos (.inl hbase), if_pos (.inl hbase)]
    · have hle := UInt32.not_lt.1 hbase
      have hoffset := UInt32.toNat_sub_of_le _ _ hle
      rw [UInt32.le_iff_toNat_le] at hle
      have hsize : image.withinAddresses.bytes.size ≤ (a - image.base).toNat ↔
          image.bytes.size ≤ (a - image.base).toNat := by
        rw [size_withinAddresses, hoffset, UInt32.size]
        omega
      have hword : image.withinAddresses.wordAtOffset? (a - image.base).toNat =
          image.wordAtOffset? (a - image.base).toNat := by
        refine wordAtOffset?_withinAddresses ?_
        rw [hoffset, UInt32.size]
        omega
      simp only [hsize, hword]
  · rw [fetch_of_misaligned haligned, fetch_of_misaligned haligned]

theorem hasWord_withinAddresses (hbase : image.base.toNat % 4 = 0) :
    image.withinAddresses.HasWord a ↔ image.HasWord a := by
  have hlt := a.toNat_lt
  refine exists_congr fun index => and_congr_right fun haddress => ?_
  change a.toNat = image.base.toNat + 4 * index at haddress
  rw [size_withinAddresses, UInt32.size]
  omega

theorem paddingStarts_of_misaligned (h : image.base.toNat % 4 ≠ 0) :
    image.paddingStarts symbols = [] := by
  rw [List.eq_nil_iff_forall_not_mem]
  intro a ha
  obtain ⟨⟨index, haddress, -⟩, hnop, -⟩ := mem_paddingStarts.1 ha
  rw [decode, decode?, fetch_of_misaligned (by omega)] at hnop
  exact hnop rfl

theorem paddingStarts_withinAddresses (image : Image) (symbols : SymbolTable) :
    image.withinAddresses.paddingStarts symbols = image.paddingStarts symbols := by
  by_cases hbase : image.base.toNat % 4 = 0
  · have haddresses : image.withinAddresses.words.map Prod.fst = image.words.map Prod.fst :=
      (pairwise_words _).eq_of_mem_iff (pairwise_words _) fun a => by
        rw [mem_map_fst_words, mem_map_fst_words, hasWord_withinAddresses hbase]
    have hdecode : image.withinAddresses.decode symbols = image.decode symbols :=
      funext (decode_congr image.fetch_withinAddresses)
    rw [paddingStarts, paddingStarts, allInstructions_eq, allInstructions_eq, haddresses, hdecode]
  · rw [paddingStarts_of_misaligned hbase]
    exact paddingStarts_of_misaligned hbase

theorem findsPadded (image : Image) (symbols : SymbolTable) : image.FindsPadded symbols where
  ascending := image.pairwise_paddingStarts symbols
  mem_iff _ := mem_paddingStarts
  within := image.paddingStarts_withinAddresses symbols

/--
Padding in front, a return and two words of padding, a return without any, and a return with padding
at the end of the address space.
-/
def paddedReturns : Image where
  base := 0xffffffe0
  bytes := #[0x00, 0x00, 0x00, 0x00, 0x0d, 0x00, 0x00, 0x00, 0x00, 0x00, 0x00, 0x00,
    0x00, 0x00, 0x00, 0x00, 0x22, 0xa0, 0x01, 0x00, 0x0d, 0x00, 0x00, 0x00,
    0x0d, 0x00, 0x00, 0x00, 0x00, 0x00, 0x00, 0x00, 0x22, 0xa0, 0x01, 0x00]

example : paddedReturns.paddingStarts .empty = [0xfffffff0] := by decide +kernel

end Image

end FirmwareLift
