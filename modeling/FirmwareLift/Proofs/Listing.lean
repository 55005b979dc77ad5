import FirmwareLift.Image
import FirmwareLift.Proofs.FlowGraph.Segments
import Mathlib.Data.List.Nodup
import Mathlib.Logic.Basic

/-!
# Listings

A listing has an instruction at every fourth address of its range, which carries the word that stands
there. It never wraps around, it is consecutive, and listings of adjacent ranges make one listing.
-/

namespace FirmwareLift

/-! ## Words

A decoded instruction carries the word that stands at its address, the lowest byte first, and the
word zero where fewer than four bytes are left. -/

/-- The number that bytes stand for, the lowest byte first. -/
def littleEndian : List UInt8 → Nat
  | [] => 0
  | byte :: rest => byte.toNat + 256 * littleEndian rest

theorem or_shiftLeft {x k : Nat} (hx : x < 1 <<< k) (y : Nat) : x ||| y <<< k = x + y <<< k := by
  rw [Nat.one_shiftLeft] at hx
  rw [Nat.or_comm, ← Nat.shiftLeft_add_eq_or_of_lt hx, Nat.add_comm]

theorem toNat_shiftLeft_byte (byte : UInt8) {k : UInt32} (hk : k.toNat ≤ 24) :
    (byte.toUInt32 <<< k).toNat = byte.toNat <<< k.toNat := by
  have hlt : byte.toNat * 2 ^ k.toNat < 2 ^ 32 := calc
    byte.toNat * 2 ^ k.toNat < 2 ^ 8 * 2 ^ k.toNat :=
      Nat.mul_lt_mul_of_pos_right byte.toNat_lt (Nat.two_pow_pos _)
    _ ≤ 2 ^ 8 * 2 ^ 24 := Nat.mul_le_mul_left _ (Nat.pow_le_pow_right (by decide) hk)
    _ = 2 ^ 32 := by decide
  rw [UInt32.toNat_shiftLeft, UInt8.toNat_toUInt32, Nat.mod_eq_of_lt (show k.toNat < 32 by omega),
    Nat.shiftLeft_eq, Nat.mod_eq_of_lt hlt]

theorem Word.toNat_ofBytes (b0 b1 b2 b3 : UInt8) :
    (Word.ofBytes b0 b1 b2 b3).toNat = littleEndian [b0, b1, b2, b3] := by
  have h0 := b0.toNat_lt
  have h1 := b1.toNat_lt
  have h2 := b2.toNat_lt
  have hsum : (Word.ofBytes b0 b1 b2 b3).toNat =
      b0.toNat + b1.toNat <<< 8 + b2.toNat <<< 16 + b3.toNat <<< 24 := by
    simp only [ofBytes, UInt32.toNat_or, UInt8.toNat_toUInt32]
    rw [toNat_shiftLeft_byte b1 (by decide), toNat_shiftLeft_byte b2 (by decide),
      toNat_shiftLeft_byte b3 (by decide)]
    simp only [UInt32.reduceToNat]
    rw [or_shiftLeft (show b0.toNat < 1 <<< 8 by omega),
      or_shiftLeft (show _ < 1 <<< 16 by omega) b2.toNat, or_shiftLeft (by omega)]
  rw [hsum]
  simp only [littleEndian]
  omega

theorem mod_width_eq_zero_iff {address : Address} :
    address % Instruction.width = 0 ↔ address.toNat % 4 = 0 := by
  rw [← UInt32.toNat_inj, UInt32.toNat_mod]
  rfl

namespace Image

variable (image : Image) (symbols : SymbolTable)

theorem toNat_wordAtOffset? (offset : Nat) :
    (image.wordAtOffset? offset).map UInt32.toNat =
      if offset + 4 ≤ image.bytes.size then
        some (littleEndian ((image.bytes.toList.drop offset).take 4))
      else none := by
  by_cases h : offset + 4 ≤ image.bytes.size
  · have hlength : offset + 4 ≤ image.bytes.toList.length := by simpa using h
    rw [if_pos h, wordAtOffset?, Array.getElem?_eq_getElem (by omega),
      Array.getElem?_eq_getElem (by omega), Array.getElem?_eq_getElem (by omega),
      Array.getElem?_eq_getElem (by omega)]
    rw [List.drop_eq_getElem_cons (by omega), List.drop_eq_getElem_cons (by omega),
      List.drop_eq_getElem_cons (by omega), List.drop_eq_getElem_cons (by omega)]
    exact congrArg some (Word.toNat_ofBytes _ _ _ _)
  · rw [if_neg h, wordAtOffset?, Array.getElem?_eq_none (i := offset + 3) (by omega)]
    split
    · simp_all
    · rfl

theorem fetch_of_misaligned {image : Image} {address : Address} (h : address.toNat % 4 ≠ 0) :
    image.fetch address = .error (.misaligned address) :=
  if_pos (mt mod_width_eq_zero_iff.1 h)

theorem aligned_of_fetch {image : Image} {address : Address} {word : Word}
    (h : image.fetch address = .ok word) : address.toNat % 4 = 0 :=
  Decidable.byContradiction fun hmod => by
    rw [fetch_of_misaligned hmod] at h
    cases h

/-! ## Decoded words -/

@[simp] theorem address_decodeWord (address : Address) (word : Word) :
    (image.decodeWord symbols address word).address = address := by
  unfold decodeWord
  split <;> rfl

@[simp] theorem word_decodeWord (address : Address) (word : Word) :
    (image.decodeWord symbols address word).word = word := by
  unfold decodeWord
  split <;> rfl

@[simp] theorem comment_decodeWord (address : Address) (word : Word) :
    (image.decodeWord symbols address word).comment = none := by
  unfold decodeWord
  split <;> rfl

@[simp] theorem address_decode (address : Address) :
    (image.decode symbols address).address = address := by
  unfold decode decode?
  cases image.fetch address with
  | ok word => exact image.address_decodeWord symbols address word
  | error _ => rfl

theorem word_decode {address : Address} (haligned : address % Instruction.width = 0)
    (hbase : image.base ≤ address) :
    (image.decode symbols address).word =
      (image.wordAtOffset? (address - image.base).toNat).getD 0 := by
  unfold decode decode? fetch
  rw [if_neg (not_not.2 haligned)]
  by_cases hsize : image.bytes.size ≤ (address - image.base).toNat
  · have hnone : image.wordAtOffset? (address - image.base).toNat = none := by
      rw [wordAtOffset?, Array.getElem?_eq_none hsize]
    rw [if_pos (Or.inr hsize), hnone]
    rfl
  · rw [if_neg (not_or.2 ⟨UInt32.not_lt.2 hbase, hsize⟩)]
    cases image.wordAtOffset? (address - image.base).toNat with
    | none => rfl
    | some word => exact image.word_decodeWord symbols address word

theorem toNat_word_decode {address : Address} (haligned : address % Instruction.width = 0)
    (hbase : image.base ≤ address) :
    (image.decode symbols address).word.toNat =
      if (address - image.base).toNat + 4 ≤ image.bytes.size then
        littleEndian ((image.bytes.toList.drop (address - image.base).toNat).take 4)
      else 0 := by
  have hword := image.toNat_wordAtOffset? (address - image.base).toNat
  rw [image.word_decode symbols haligned hbase]
  cases h : image.wordAtOffset? (address - image.base).toNat with
  | none =>
      rw [h] at hword
      split at hword
      · cases hword
      · rw [if_neg ‹_›]
        rfl
  | some word =>
      rw [h] at hword
      split at hword
      · rw [if_pos ‹_›]
        exact Option.some.inj hword
      · cases hword

end Image

/-! ## Addresses -/

theorem toNat_wordsBetween (start stop : Address) :
    (wordsBetween start stop).map UInt32.toNat =
      List.range' start.toNat ((stop.toNat - start.toNat + 3) / 4) 4 := by
  apply List.ext_getElem
  · simp [wordsBetween]
  · intro i hi _
    have hi : i < (stop.toNat - start.toNat + 3) / 4 := by simpa [wordsBetween] using hi
    have hstop := stop.toNat_lt
    simp only [wordsBetween, List.map_map, List.getElem_map, List.getElem_range, Function.comp_apply,
      List.getElem_range']
    rw [UInt32.toNat_add, UInt32.toNat_ofNat_of_lt' (by unfold UInt32.size; omega),
      Nat.mod_eq_of_lt (by omega)]

theorem mem_wordsBetween {start stop a : Address} :
    a ∈ wordsBetween start stop ↔
      start ≤ a ∧ a < stop ∧ a.toNat % 4 = start.toNat % 4 := by
  rw [← List.mem_map_of_injective (f := UInt32.toNat) fun _ _ => UInt32.toNat_inj.1,
    toNat_wordsBetween, List.mem_range', UInt32.le_iff_toNat_le, UInt32.lt_iff_toNat_lt]
  constructor
  · rintro ⟨i, hi, heq⟩
    omega
  · rintro ⟨hstart, hstop, hmod⟩
    exact ⟨(a.toNat - start.toNat) / 4, by omega, by omega⟩

theorem wordsBetween_append {start middle stop : Address} (h : start ≤ middle) (h' : middle ≤ stop)
    (haligned : middle.toNat % 4 = start.toNat % 4) :
    wordsBetween start middle ++ wordsBetween middle stop = wordsBetween start stop := by
  apply List.map_injective_iff.2 fun _ _ => UInt32.toNat_inj.1
  rw [UInt32.le_iff_toNat_le] at h h'
  rw [List.map_append, toNat_wordsBetween, toNat_wordsBetween, toNat_wordsBetween]
  have hmiddle : start.toNat + 4 * ((middle.toNat - start.toNat + 3) / 4) = middle.toNat := by
    omega
  have hcount : (middle.toNat - start.toNat + 3) / 4 + (stop.toNat - middle.toNat + 3) / 4 =
      (stop.toNat - start.toNat + 3) / 4 := by
    omega
  rw [← hcount, ← List.range'_append, hmiddle]

/-! ## Instructions -/

namespace Image

variable (image : Image) (symbols : SymbolTable)

theorem addresses_listing (start stop : Address) :
    (image.listing symbols start stop).map (·.address) = wordsBetween start stop := by
  simp [listing, Function.comp_def]

theorem consecutive_listing (start stop : Address) :
    Consecutive (image.listing symbols start stop) where
  next_eq := by
    rw [List.isChain_iff_getElem]
    intro i hi
    simp only [listing, wordsBetween, List.getElem_map, List.getElem_range, address_decode,
      Instruction.next]
    rw [Nat.mul_succ, UInt32.ofNat_add, ← UInt32.add_assoc]
    rfl
  nodup := by
    rw [addresses_listing]
    apply List.Nodup.of_map UInt32.toNat
    rw [toNat_wordsBetween]
    exact List.nodup_range' 4 (by decide)

end Image

end FirmwareLift
