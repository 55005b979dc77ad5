import FirmwareLift.Proofs.Detection.Annotation
import FirmwareLift.Proofs.OrderedMap

/-!
# Usage of the API

Detection names each call of an API function once: the usage that is counted from the comments is
the number of calls by their operands, and a second run finds nothing.
-/

namespace FirmwareLift

namespace Descriptor

variable (d : Descriptor)

/-- What the operands of a call say: the first known name of a numeric target, or else a symbol. -/
def operandName? (call : Instruction) : Option String :=
  match call.target? with
  | some address => d.knownFunctions.nameAt? address
  | none => call.operands.getLast?.filter fun operand =>
      Operand.isIdentifier operand.toList && !Operand.isRegister operand

/-- The function of the API that an instruction calls by its operands. -/
def apiName? (insn : Instruction) : Option String :=
  if insn.isCall then (d.operandName? insn).filter fun name => (d.apiFamily? name).isSome
  else none

/-- The functions of the API that are called, once for each call. -/
def apiNames (routines : List Routine) : List String :=
  (routines.flatMap fun f => f.graph.instructions).filterMap d.apiName?

/-- How many instructions call a function of the API. -/
def callsOf (routines : List Routine) (name : String) : Nat :=
  (routines.flatMap fun f => f.graph.instructions).countP fun insn =>
    insn.isCall && d.operandName? insn = some name && (d.apiFamily? name).isSome

end Descriptor

namespace Instruction

/-- The name that a call with a comment shows. -/
def shownCall? (insn : Instruction) : Option String :=
  if insn.isCall && insn.comment.isSome then insn.displayName? else none

end Instruction

/-- How many stores have a comment. -/
def taggedStores (routines : List Routine) : Nat :=
  (routines.flatMap fun f => f.graph.instructions).countP fun insn =>
    insn.isStore && insn.comment.isSome

def Routine.Uncommented (f : Routine) : Prop :=
  ∀ insn ∈ f.graph.instructions, insn.comment = none

instance (f : Routine) : Decidable f.Uncommented :=
  inferInstanceAs (Decidable (∀ insn ∈ f.graph.instructions, insn.comment = none))

theorem apiUsage_eq_tally (routines : List Routine) :
    apiUsage routines = OrderedMap.empty.tally
      ((routines.flatMap fun f => f.graph.instructions).filterMap Instruction.shownCall?) := by
  rw [apiUsage, List.filterMap_filter]
  rfl

/-! ## One instruction -/

namespace Descriptor

variable {d : Descriptor} {insn : Instruction} {known : Constants}

theorem calledName?_of_uncommented (h : insn.comment = none) :
    d.calledName? insn = if insn.isCall then d.operandName? insn else none := by
  simp only [calledName?, Instruction.displayName?, h, Option.bind_none, Option.none_or]
  rfl

theorem isIdentifier_of_operandName? {name : String}
    (hnames : ∀ name ∈ d.knownFunctions.keys, Operand.isIdentifier name.toList = true)
    (h : d.operandName? insn = some name) : Operand.isIdentifier name.toList = true := by
  unfold operandName? at h
  split at h
  · next address _ =>
    have hmem := List.mem_of_head? h
    exact hnames name ((List.filter_sublist.map _).subset hmem)
  · obtain ⟨-, hoperand⟩ := Option.filter_eq_some_iff.1 h
    simp only [Bool.and_eq_true] at hoperand
    exact hoperand.1

theorem note?_of_isCall (hcomment : insn.comment = none) (hcall : insn.isCall = true) :
    d.note? known insn = (d.operandName? insn).bind d.callNote? := by
  rw [note?, calledName?_of_uncommented hcomment, if_pos hcall]
  cases d.operandName? insn with
  | none => simp [Instruction.not_isStore_of_isCall hcall]
  | some name => rfl

theorem note?_of_not_isCall (hcall : insn.isCall = false) :
    d.note? known insn = if insn.isStore then d.storeNote? known insn else none := by
  simp [note?, calledName?, hcall]

theorem isSome_note?_of_isCall (hcomment : insn.comment = none) (hcall : insn.isCall = true) :
    (d.note? known insn).isSome = (d.apiName? insn).isSome := by
  rw [note?_of_isCall hcomment hcall, apiName?, if_pos hcall]
  cases d.operandName? insn with
  | none => rfl
  | some name =>
      rw [Option.bind_some, callNote?, Option.isSome_map]
      cases hfamily : (d.apiFamily? name).isSome <;> simp [hfamily]

theorem isCall_annotate : (d.annotate insn known).1.isCall = insn.isCall :=
  d.view_annotate insn known Instruction.isCall Instruction.isCall_bare

theorem isStore_annotate : (d.annotate insn known).1.isStore = insn.isStore :=
  d.view_annotate insn known Instruction.isStore Instruction.isStore_bare

theorem comment_annotate_of_uncommented (h : insn.comment = none) :
    (d.annotate insn known).1.comment = d.note? known insn := by
  rw [comment_annotate, h, Option.none_or]

/-- A call shows the function of the API that its operands say, if it calls one. -/
theorem shownCall?_annotate
    (hnames : ∀ name ∈ d.knownFunctions.keys, Operand.isIdentifier name.toList = true)
    (hcomment : insn.comment = none) :
    (d.annotate insn known).1.shownCall? = d.apiName? insn := by
  rw [Instruction.shownCall?, isCall_annotate, comment_annotate_of_uncommented hcomment]
  cases hcall : insn.isCall with
  | false => simp [apiName?, hcall]
  | true =>
      rw [isSome_note?_of_isCall hcomment hcall]
      cases hname : d.apiName? insn with
      | none => rfl
      | some name =>
          rw [apiName?, if_pos hcall, Option.filter_eq_some_iff] at hname
          obtain ⟨hname, hfamily⟩ := hname
          obtain ⟨family, hfamily⟩ := Option.isSome_iff_exists.1 hfamily
          have hnote : (d.annotate insn known).1.comment = some s!"{family}: {name}" := by
            rw [comment_annotate_of_uncommented hcomment, note?_of_isCall hcomment hcall, hname,
              Option.bind_some, callNote?, hfamily, Option.map_some]
          exact Instruction.displayName?_of_comment hnote
            (isIdentifier_of_operandName? hnames hname)

/-- A new comment is on a call of the API or on a store. -/
theorem isNew_annotate_of_uncommented (hcomment : insn.comment = none) :
    (d.annotate insn known).2 =
      if insn.isCall then (d.apiName? insn).isSome
      else (d.annotate insn known).1.isStore && (d.annotate insn known).1.comment.isSome := by
  rw [isNew_annotate, hcomment, comment_annotate_of_uncommented hcomment, isStore_annotate,
    Option.isNone_none, Bool.true_and]
  cases hcall : insn.isCall with
  | true => exact isSome_note?_of_isCall hcomment hcall
  | false =>
      rw [note?_of_not_isCall hcall]
      cases insn.isStore <;> simp

end Descriptor

/-! ## Constants -/

theorem Constants.step_annotate (d : Descriptor) (known before : Constants) (insn : Instruction) :
    before.step (d.annotate insn known).1 = before.step insn :=
  d.view_annotate insn known before.step fun _ => rfl

/-- The comments do not change which constants are known. -/
theorem Constants.scan_annotated (d : Descriptor) (known : Constants)
    (instructions : List Instruction) :
    known.scan ((d.annotated (known.scan instructions)).map (·.1)) =
      (known.scan instructions).map fun site => ((d.annotate site.1 site.2).1, site.2) := by
  induction instructions generalizing known with
  | nil => rfl
  | cons insn rest ih =>
      have ih := ih (known.step insn)
      simp only [Descriptor.annotated, scan, List.map_cons, step_annotate] at ih ⊢
      rw [ih]

theorem Block.withConstants_annotateBlock (d : Descriptor) (b : Block) :
    (d.annotateBlock b).withConstants =
      b.withConstants.map fun site => ((d.annotate site.1 site.2).1, site.2) :=
  Constants.scan_annotated d .empty b.instructions

/-! ## All routines -/

/-- The instructions of all routines with the constants known before each of them. -/
def sites (routines : List Routine) : List (Instruction × Constants) :=
  routines.flatMap fun f => f.graph.withConstants

theorem map_fst_sites (routines : List Routine) :
    (sites routines).map (·.1) = routines.flatMap fun f => f.graph.instructions := by
  simp only [sites, FlowGraph.withConstants, List.map_flatMap, Block.withConstants,
    Constants.map_fst_scan]
  rfl

namespace Descriptor

variable (d : Descriptor) (routines : List Routine)

theorem apiNames_eq :
    d.apiNames routines = (sites routines).filterMap fun site => d.apiName? site.1 := by
  rw [apiNames, ← map_fst_sites, List.filterMap_map]
  rfl

theorem sites_detectApis :
    sites (d.detectApis routines).2 =
      (sites routines).map fun site => ((d.annotate site.1 site.2).1, site.2) := by
  simp only [sites, detectApis, List.flatMap_map, annotateRoutine, FlowGraph.withConstants,
    Block.withConstants_annotateBlock, List.map_flatMap]

theorem instructions_detectApis :
    ((d.detectApis routines).2.flatMap fun f => f.graph.instructions) =
      (sites routines).map fun site => (d.annotate site.1 site.2).1 := by
  rw [← map_fst_sites, sites_detectApis, List.map_map]
  rfl

theorem annotateBlock_annotateBlock (b : Block) :
    d.annotateBlock (d.annotateBlock b) = d.annotateBlock b := by
  conv => lhs; rw [annotateBlock, Block.withConstants_annotateBlock]
  simp [annotated, annotateBlock, annotate_annotate, Function.comp_def]

/-- A second run finds nothing and changes nothing. -/
theorem detectApis_detectApis :
    d.detectApis (d.detectApis routines).2 = (0, (d.detectApis routines).2) := by
  have hcount : d.newNotes (d.detectApis routines).2 = 0 := by
    change (d.annotated (sites (d.detectApis routines).2)).countP (·.2) = 0
    rw [sites_detectApis, annotated]
    simp [annotate_annotate, Function.comp_def, List.countP_map]
  have hroutines : (d.detectApis routines).2.map d.annotateRoutine = (d.detectApis routines).2 := by
    simp [detectApis, annotateRoutine, annotateBlock_annotateBlock, Function.comp_def]
  rw [detectApis, hcount, hroutines]

variable {d routines}

theorem comment_of_mem_sites (hcomments : ∀ f ∈ routines, f.Uncommented)
    {site : Instruction × Constants} (h : site ∈ sites routines) : site.1.comment = none := by
  have hmem : site.1 ∈ routines.flatMap fun f => f.graph.instructions := by
    rw [← map_fst_sites]
    exact List.mem_map_of_mem h
  obtain ⟨f, hf, hinsn⟩ := List.mem_flatMap.1 hmem
  exact hcomments f hf site.1 hinsn

/-- The usage counts the calls by what their operands say. -/
theorem apiUsage_detectApis
    (hnames : ∀ name ∈ d.knownFunctions.keys, Operand.isIdentifier name.toList = true)
    (hcomments : ∀ f ∈ routines, f.Uncommented) :
    apiUsage (d.detectApis routines).2 = OrderedMap.empty.tally (d.apiNames routines) := by
  rw [apiUsage_eq_tally, instructions_detectApis, List.filterMap_map, apiNames_eq]
  congr 1
  exact List.filterMap_congr fun site hsite =>
    shownCall?_annotate hnames (comment_of_mem_sites hcomments hsite)

theorem count_apiNames (routines : List Routine) (name : String) :
    (d.apiNames routines).count name = d.callsOf routines name := by
  rw [apiNames, callsOf, List.count_filterMap]
  congr 1
  funext insn
  rw [Bool.eq_iff_iff]
  cases hcall : insn.isCall with
  | false => simp [apiName?, hcall]
  | true => simp [apiName?, hcall, Option.filter_eq_some_iff]

/-- The new comments are those of the calls and those of the stores. -/
theorem newNotes_eq (hcomments : ∀ f ∈ routines, f.Uncommented) :
    d.newNotes routines =
      (d.apiNames routines).length + taggedStores (d.detectApis routines).2 := by
  have hnew : ∀ site ∈ sites routines, (d.annotate site.1 site.2).2 = _ := fun site hsite =>
    isNew_annotate_of_uncommented (comment_of_mem_sites hcomments hsite)
  have hcalls : (sites routines).countP
      (fun site => (d.annotate site.1 site.2).2 && site.1.isCall) =
      (d.apiNames routines).length := by
    rw [apiNames_eq, List.length_filterMap_eq_countP]
    refine List.countP_congr fun site hsite => ?_
    rw [hnew site hsite]
    cases hcall : site.1.isCall with
    | false => simp [apiName?, hcall]
    | true => simp
  have hstores : (sites routines).countP
      (fun site => (d.annotate site.1 site.2).2 && !site.1.isCall) =
      taggedStores (d.detectApis routines).2 := by
    rw [taggedStores, instructions_detectApis, List.countP_map]
    refine List.countP_congr fun site hsite => ?_
    rw [hnew site hsite]
    cases hcall : site.1.isCall with
    | false => simp
    | true => simp [isStore_annotate, Instruction.not_isStore_of_isCall hcall]
  calc d.newNotes routines
      = (sites routines).countP (fun site => (d.annotate site.1 site.2).2) := List.countP_map
    _ = _ := by
      rw [List.countP_eq_countP_filter_add _ _ fun site => site.1.isCall, List.countP_filter,
        List.countP_filter, hcalls, hstores]

/--
The usage of the API holds each function with the number of its calls, and no other function. These
calls and the stores with a comment are what detection counts, and it finds them all at once.
-/
theorem api_calls_conserved
    (hnames : ∀ name ∈ d.knownFunctions.keys, Operand.isIdentifier name.toList = true)
    (hcomments : ∀ f ∈ routines, f.Uncommented) :
    (∀ name, (apiUsage (d.detectApis routines).2).get? name =
        if d.callsOf routines name = 0 then none else some (d.callsOf routines name)) ∧
      (d.detectApis routines).1 =
        (apiUsage (d.detectApis routines).2).values.sum +
          taggedStores (d.detectApis routines).2 ∧
      d.detectApis (d.detectApis routines).2 = (0, (d.detectApis routines).2) := by
  rw [apiUsage_detectApis hnames hcomments]
  refine ⟨fun name => ?_, ?_, d.detectApis_detectApis routines⟩
  · rw [OrderedMap.get?_tally, ← count_apiNames]
    by_cases hmem : name ∈ d.apiNames routines
    · rw [if_pos hmem, if_neg fun hcount => List.count_eq_zero.1 hcount hmem]
      simp [OrderedMap.get?, OrderedMap.empty]
    · rw [if_neg hmem, if_pos (List.count_eq_zero.2 hmem)]
      rfl
  · rw [OrderedMap.sum_values_tally]
    change d.newNotes routines = _
    rw [newNotes_eq hcomments]
    simp [OrderedMap.values, OrderedMap.empty]

/-- A device whose only API family has a separator in its name. -/
def separated : Descriptor :=
  { esp32 with apiFamilies := [⟨"gpio_", "Pins: GPIO"⟩, ⟨"log", "Output"⟩] }

/-- Two calls of one function, a call of a symbol, and a store to a register of the GPIO. -/
def blinking : Routine where
  start := 0x400d0000
  stop := 0x400d0014
  name := "blink"
  graph := { blocks := [{
    id := 0, start := 0x400d0000, last := 0x400d0010
    instructions := [
      ⟨0x400d0000, 0, "call8", ["0x40009040"], none⟩,
      ⟨0x400d0004, 0, "call8", ["log_level"], none⟩,
      ⟨0x400d0008, 0, "movi", ["a3", "0x3ff44000"], none⟩,
      ⟨0x400d000c, 0, "s32i", ["a2", "a3", "4"], none⟩,
      ⟨0x400d0010, 0, "call8", ["0x40009040"], none⟩] }] }

theorem blinking_conserved :
    ((∀ name ∈ separated.knownFunctions.keys, Operand.isIdentifier name.toList = true) ∧
      ∀ f ∈ [blinking], f.Uncommented) ∧
    (∀ name, (apiUsage (separated.detectApis [blinking]).2).get? name =
        if separated.callsOf [blinking] name = 0 then none
        else some (separated.callsOf [blinking] name)) ∧
      (separated.detectApis [blinking]).1 =
        (apiUsage (separated.detectApis [blinking]).2).values.sum +
          taggedStores (separated.detectApis [blinking]).2 ∧
      separated.detectApis (separated.detectApis [blinking]).2 =
        (0, (separated.detectApis [blinking]).2) := by
  have hnames : ∀ name ∈ separated.knownFunctions.keys,
      Operand.isIdentifier name.toList = true := by decide +kernel
  have hcomments : ∀ f ∈ [blinking], f.Uncommented := by decide
  exact ⟨⟨hnames, hcomments⟩, api_calls_conserved hnames hcomments⟩

/-- Detection counts the three calls and the store. -/
example : (apiUsage (separated.detectApis [blinking]).2).toList =
      [("gpio_set_level", 2), ("log_level", 1)] ∧
    (separated.detectApis [blinking]).1 = 4 := by
  decide +kernel

end Descriptor

end FirmwareLift
