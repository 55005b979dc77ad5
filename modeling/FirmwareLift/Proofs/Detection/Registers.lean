import FirmwareLift.Idiom.Library
import FirmwareLift.Proofs.Detection.Constants
import FirmwareLift.Proofs.Detection.Usage

/-!
# Register accesses

A store right behind the load of its base is found to access a peripheral by the constants that are
known, and written as an access by the operands of the two instructions. Both work out the same
address, so that what is written shows an address of the peripheral in the comment.
-/

namespace FirmwareLift

open Text.Numeral (hex8)

/-- Side by side in a block: a load of a constant, and a store that has its register as base. -/
structure Block.LoadsBase (b : Block) (index : Nat) (load store : Instruction) : Prop where
  loadAt : b.instructions[index]? = some load
  storeAt : b.instructions[index + 1]? = some store
  isLoad : load.mnemonic = "movi" ∨ load.mnemonic = "l32r"
  isStore : store.isStore = true
  base : ∃ register, load.defined? = some register ∧ store.operands[1]? = some register

/--
A window that starts with the load and the store is written as the access to a register. Its address
is the sum of the constant and the offset modulo 2^32, and the comment names the peripheral there.
-/
def Descriptor.WritesAccess (d : Descriptor) (load store : Instruction) (note : String)
    (window : List Instruction) : Prop :=
  ∃ constant offset value region,
    load.operands[1]?.bind Operand.value? = some constant ∧
      store.operands[2]?.bind Operand.value? = some offset ∧
        store.operands.head? = some value ∧
          d.peripheralAt? (constant + offset) = some region ∧
            note = s!"{d.name} {region.name} register" ∧
              IdiomLibrary.match? [] window =
                some ⟨s!"REG_WRITE({hex8 (constant + offset)}, {value});", 2⟩

/-! ## Shapes -/

namespace Instruction

variable {insn : Instruction}

theorem loaded?_of_isStore (h : insn.isStore = true) : insn.loaded? = none := by
  refine if_neg ?_
  rintro (hmnemonic | hmnemonic) <;>
    simp [isStore, kind, hmnemonic, Kind.ofMnemonic] at h

theorem mentions_register {front : String} (h : insn.comment = some (front ++ " register")) :
    insn.mentions "register" = true := by
  have hlower : " register".toList.map Char.toLower = ' ' :: "register".toList := by decide
  rw [mentions, h, Option.any_some, Text.containsIgnoringCase, Text.contains_iff,
    String.toList_append, List.map_append, hlower]
  exact ((List.suffix_cons _ _).trans (List.suffix_append _ _)).isInfix

end Instruction

theorem Shape.match?_of_loads_base {load store : Instruction} {rest : List Instruction}
    {register constant value offset : Operand} {more : List Operand}
    (hloaded : load.loaded? = some (register, constant)) (hstore : store.isStore = true)
    (hoperands : store.operands = value :: register :: offset :: more)
    (hmentions : store.mentions "register" = true) :
    Shape.match? (load :: store :: rest) =
      some ⟨s!"REG_WRITE({registerAddress constant offset}, {value});", 2⟩ := by
  have hgpio : gpioCall? (load :: store :: rest) = none := by
    unfold gpioCall?
    split
    · next first second call rest heq =>
      obtain ⟨rfl, rfl, -⟩ : _ ∧ _ ∧ _ := by simpa using heq
      simp [Instruction.loaded?_of_isStore hstore]
    · rfl
  have hwrite : registerWrite? (load :: store :: rest) =
      some ⟨s!"REG_WRITE({registerAddress constant offset}, {value});", 2⟩ := by
    simp [registerWrite?, hloaded, hstore, hoperands, hmentions]
  rw [match?, hgpio, Option.none_or, hwrite, Option.some_or]

/-! ## Comments -/

namespace Descriptor

variable {d : Descriptor}

theorem note?_of_isStore {insn : Instruction} {known : Constants} (h : insn.isStore = true) :
    d.note? known insn = d.storeNote? known insn := by
  have hcall : insn.isCall = false := by
    cases hcall : insn.isCall with
    | false => rfl
    | true => rw [Instruction.not_isStore_of_isCall hcall] at h; cases h
  rw [note?_of_not_isCall hcall, if_pos h]

theorem storeNote?_eq_some {known : Constants} {store : Instruction} {note : String}
    (h : d.storeNote? known store = some note) :
    ∃ value base offset more constant distance region,
      store.operands = value :: base :: offset :: more ∧ known.get? base = some constant ∧
        offset.value? = some distance ∧ d.peripheralAt? (constant + distance) = some region ∧
          note = s!"{d.name} {region.name} register" := by
  simp only [storeNote?, Option.bind_eq_bind, Option.bind_eq_some_iff, Option.pure_def,
    Option.some.injEq] at h
  obtain ⟨base, hbase, constant, hconstant, offset, hoffset, distance, hdistance, region, hregion,
    rfl⟩ := h
  obtain ⟨value, more, hoperands⟩ : ∃ value more,
      store.operands = value :: base :: offset :: more := by
    rcases hoperands : store.operands with _ | ⟨value, _ | ⟨first, _ | ⟨second, more⟩⟩⟩ <;>
      simp only [hoperands] at hbase hoffset
    · cases hbase
    · cases hbase
    · cases hoffset
    · obtain rfl : first = base := Option.some.inj hbase
      obtain rfl : second = offset := Option.some.inj hoffset
      exact ⟨value, more, rfl⟩
  exact ⟨value, base, offset, more, constant, distance, region, hoperands, hconstant, hdistance,
    hregion, rfl⟩

theorem getElem?_annotateBlock (b : Block) (index : Nat) :
    (d.annotateBlock b).instructions[index]? = b.instructions[index]?.map fun insn =>
      (d.annotate insn (.behind (b.instructions.take index))).1 := by
  rw [annotateBlock, annotated, List.map_map, List.getElem?_map, Block.getElem?_withConstants,
    Option.map_map]
  rfl

theorem block?_detectApis (routines : List Routine) (i j : Nat) :
    ((d.detectApis routines).2[i]?.bind fun f => f.graph.block? j) =
      (routines[i]?.bind fun f => f.graph.block? j).map d.annotateBlock := by
  rw [detectApis, List.getElem?_map, Option.bind_map, Option.map_bind]
  congr 1
  funext f
  exact List.getElem?_map

end Descriptor

namespace Block.LoadsBase

variable {b : Block} {index : Nat} {load store : Instruction} {register : Operand}

/-- What the load shows is known of the base of the store. -/
theorem knownConstant? (h : b.LoadsBase index load store)
    (hdefined : load.defined? = some register) :
    knownConstant? (b.instructions.take (index + 1)) register =
      load.operands[1]?.bind Operand.value? := by
  rw [List.take_add_one, h.loadAt, Option.toList_some, knownConstant?_append, if_pos hdefined,
    Instruction.shownConstant?, if_pos h.isLoad]

theorem loaded? (h : b.LoadsBase index load store) (hdefined : load.defined? = some register)
    {constant : Operand} (hconstant : load.operands[1]? = some constant) :
    load.loaded? = some (register, constant) := by
  have hregister : load.operands.head? = some register := by
    rw [Instruction.defined?] at hdefined
    split at hdefined
    · exact (Option.filter_eq_some_iff.1 hdefined).1
    · cases hdefined
  rw [Instruction.loaded?, if_pos h.isLoad]
  match load.operands, hregister, hconstant with
  | _ :: _ :: _, rfl, rfl => rfl

end Block.LoadsBase

namespace Descriptor

variable {d : Descriptor} {b : Block} {index : Nat} {load store : Instruction}

/-- The pass leaves the two instructions side by side, at the start of any window from there on. -/
theorem exists_window_annotateBlock (h : b.LoadsBase index load store) {window : List Instruction}
    (hwindow : window <+: (d.annotateBlock b).instructions.drop index)
    (hlong : 2 ≤ window.length) :
    ∃ rest, window = (d.annotate load (.behind (b.instructions.take index))).1 ::
      (d.annotate store (.behind (b.instructions.take (index + 1)))).1 :: rest := by
  have hdrop : ∀ i < window.length,
      window[i]? = (d.annotateBlock b).instructions[index + i]? := by
    intro i hi
    obtain ⟨behind, hbehind⟩ := hwindow
    rw [← List.getElem?_drop, ← hbehind, List.getElem?_append_left hi]
  match window, hlong with
  | first :: second :: rest, _ =>
    have hfirst := hdrop 0 (by simp)
    have hsecond := hdrop 1 (by simp)
    rw [getElem?_annotateBlock, Nat.add_zero, h.loadAt] at hfirst
    rw [getElem?_annotateBlock, h.storeAt] at hsecond
    exact ⟨rest, by rw [Option.some.inj hfirst, Option.some.inj hsecond]⟩

/-- A store behind the load of its base that gets a comment is written as the access it names. -/
theorem tagged_store_written (d : Descriptor) {routines : List Routine} {i j index : Nat}
    {b tagged : Block} {load store : Instruction} {note : String} {window : List Instruction}
    (hb : (routines[i]?.bind fun f => f.graph.block? j) = some b)
    (hpair : b.LoadsBase index load store) (hnew : store.comment = none)
    (htagged : ((d.detectApis routines).2[i]?.bind fun f => f.graph.block? j) = some tagged)
    (hnote : (tagged.instructions[index + 1]?.bind fun insn => insn.comment) = some note)
    (hwindow : window <+: tagged.instructions.drop index) (hlong : 2 ≤ window.length) :
    d.WritesAccess load store note window := by
  rw [block?_detectApis, hb, Option.map_some] at htagged
  obtain rfl := Option.some.inj htagged
  have hcomment : (d.annotate store (.behind (b.instructions.take (index + 1)))).1.comment =
      some note := by
    rwa [getElem?_annotateBlock, hpair.storeAt] at hnote
  -- The comment comes from the constants that are known in front of the store.
  have hstore : d.storeNote? (.behind (b.instructions.take (index + 1))) store = some note := by
    rwa [comment_annotate_of_uncommented hnew, note?_of_isStore hpair.isStore] at hcomment
  obtain ⟨value, base, offset, more, constant, distance, region, hoperands, hconstant, hdistance,
    hregion, rfl⟩ := storeNote?_eq_some hstore
  obtain ⟨register, hdefined, hbase⟩ := hpair.base
  obtain rfl : base = register := by simpa [hoperands] using hbase
  rw [Constants.get?_behind, hpair.knownConstant? hdefined] at hconstant
  obtain ⟨immediate, himmediate, hvalue⟩ := Option.bind_eq_some_iff.1 hconstant
  refine ⟨constant, distance, value, region, hconstant, by simp [hoperands, hdistance],
    by simp [hoperands], hregion, rfl, ?_⟩
  -- The statement comes from the operands, which the pass leaves alone.
  have hoperands' : (d.annotate store (.behind (b.instructions.take (index + 1)))).1.operands =
      value :: base :: offset :: more :=
    (d.view_annotate _ _ Instruction.operands fun _ => rfl).trans hoperands
  have hloaded : (d.annotate load (.behind (b.instructions.take index))).1.loaded? =
      some (base, immediate) :=
    (d.view_annotate _ _ Instruction.loaded? fun _ => rfl).trans
      (hpair.loaded? hdefined himmediate)
  have haddress : Shape.registerAddress immediate offset = hex8 (constant + distance) := by
    rw [Shape.registerAddress, hvalue, hdistance]
  obtain ⟨rest, rfl⟩ := exists_window_annotateBlock hpair hwindow hlong
  rw [← haddress]
  exact Shape.match?_of_loads_base hloaded (isStore_annotate.trans hpair.isStore) hoperands'
    (Instruction.mentions_register hcomment)

/-- A device with registers at the bottom of the address space. -/
def lowRegisters : Descriptor :=
  { esp32 with peripherals := [⟨"BOOT", 0x00000000, 0x1000⟩] }

/-- A block that stores behind the top of the address space. -/
def wrappingStore : Block where
  id := 0
  start := 0x400d0000
  last := 0x400d0008
  instructions := [
    ⟨0x400d0000, 0, "movi", ["a3", "-4"], none⟩,
    ⟨0x400d0004, 0, "s32i", ["a2", "a3", "8"], none⟩,
    ⟨0x400d0008, 0, "ret", [], none⟩]

def wrapping : Routine where
  start := 0x400d0000
  stop := 0x400d000c
  name := "wrapping"
  graph := { blocks := [wrappingStore] }

theorem wrapping_store_written :
    let load : Instruction := ⟨0x400d0000, 0, "movi", ["a3", "-4"], none⟩
    let store : Instruction := ⟨0x400d0004, 0, "s32i", ["a2", "a3", "8"], none⟩
    let tagged := lowRegisters.annotateBlock wrappingStore
    (([wrapping][0]?.bind fun f => f.graph.block? 0) = some wrappingStore ∧
        wrappingStore.LoadsBase 0 load store ∧ store.comment = none ∧
        ((lowRegisters.detectApis [wrapping]).2[0]?.bind fun f => f.graph.block? 0) = some tagged ∧
        (tagged.instructions[1]?.bind fun insn => insn.comment) = some "ESP32 BOOT register" ∧
        tagged.instructions <+: tagged.instructions.drop 0 ∧ 2 ≤ tagged.instructions.length) ∧
      lowRegisters.WritesAccess load store "ESP32 BOOT register" tagged.instructions := by
  intro load store tagged
  have hb : ([wrapping][0]?.bind fun f => f.graph.block? 0) = some wrappingStore := rfl
  have htagged : ((lowRegisters.detectApis [wrapping]).2[0]?.bind fun f => f.graph.block? 0) =
      some tagged := rfl
  have hpair : wrappingStore.LoadsBase 0 load store :=
    ⟨rfl, rfl, .inl rfl, by decide, "a3", by decide, rfl⟩
  have hnote : (tagged.instructions[1]?.bind fun insn => insn.comment) =
      some "ESP32 BOOT register" := by decide +kernel
  have hlong : 2 ≤ tagged.instructions.length := by decide +kernel
  exact ⟨⟨hb, hpair, rfl, htagged, hnote, List.prefix_rfl, hlong⟩,
    tagged_store_written lowRegisters hb hpair rfl htagged hnote List.prefix_rfl hlong⟩

/-- The sum passes the top of the address space. -/
example : IdiomLibrary.match? [] (lowRegisters.annotateBlock wrappingStore).instructions =
    some ⟨"REG_WRITE(0x00000004, a2);", 2⟩ := by
  decide +kernel

end Descriptor

end FirmwareLift
