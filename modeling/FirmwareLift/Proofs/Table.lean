import FirmwareLift.Output
import FirmwareLift.Proofs.Numeral

/-!
# Reading the table back

Whatever the fields of a record hold, a reader of CSV text reads them back from the text of the
record. So the table gives every instruction of the routines once, in their order.
-/

namespace FirmwareLift

open Text.Numeral

/-! ## Reading CSV

A reader of CSV text, character by character. Commas separate fields, and a line feed, with or
without a carriage return in front of it, ends a record; the last record may do without. A field
between quotes holds any text, where a quote is written twice; no other field holds a quote. -/

namespace CsvRecord

/-- The field that is being read, with the text that it holds so far. -/
inductive Field where
  | bare (text : List Char)
  | quoted (text : List Char)
  /-- Behind a quote, which ends the field unless another quote follows. -/
  | closed (text : List Char)
  /-- Behind a carriage return, which only a line feed may follow. -/
  | returned (text : List Char)

structure Reader where
  records : List CsvRecord := []
  fields : CsvRecord := []
  field : Field := .bare []

namespace Reader

variable (r : Reader)

def endField (text : List Char) : Reader :=
  { r with fields := r.fields ++ [String.ofList text], field := .bare [] }

def endRecord (text : List Char) : Reader where
  records := r.records ++ [r.fields ++ [String.ofList text]]

/-- What a character does that stands behind a whole field. -/
def behindField? (text : List Char) : Char → Option Reader
  | ',' => some (r.endField text)
  | '\n' => some (r.endRecord text)
  | '\r' => some { r with field := .returned text }
  | _ => none

def step? (c : Char) : Option Reader :=
  match r.field with
  | .bare text =>
    if c = '"' then if text.isEmpty then some { r with field := .quoted [] } else none
    else (r.behindField? text c).or (some { r with field := .bare (text ++ [c]) })
  | .quoted text => some { r with field := if c = '"' then .closed text else .quoted (text ++ [c]) }
  | .closed text =>
    if c = '"' then some { r with field := .quoted (text ++ [c]) } else r.behindField? text c
  | .returned text => if c = '\n' then some (r.endRecord text) else none

/-- The records up to the end of the text, which may stand right behind the end of a record. -/
def result? : Option (List CsvRecord) :=
  match r.field with
  | .bare text =>
    if text.isEmpty && r.fields.isEmpty then some r.records else some (r.endRecord text).records
  | .closed text => some (r.endRecord text).records
  | .quoted _ | .returned _ => none

end Reader

/-- The records of a CSV text; none if it is not well formed. -/
def readAll? (text : List Char) : Option (List CsvRecord) :=
  (text.foldlM Reader.step? {}).bind Reader.result?

/-! ## Fields -/

namespace Reader

variable {r : Reader} {text field : List Char} {c : Char}

theorem run_bare (hfield : r.field = .bare text)
    (hplain : ∀ c ∈ field, (c = ',' || c = '"' || c = '\n' || c = '\r') = false) :
    field.foldlM step? r = some { r with field := .bare (text ++ field) } := by
  induction field generalizing r text with
  | nil =>
      rw [List.append_nil, ← hfield]
      rfl
  | cons c field ih =>
      have hc := hplain c List.mem_cons_self
      simp only [Bool.or_eq_false_iff, decide_eq_false_iff_not] at hc
      obtain ⟨⟨⟨hcomma, hquote⟩, hfeed⟩, hreturn⟩ := hc
      have hbehind : r.behindField? text c = none := by
        unfold behindField?
        split
        case h_4 => rfl
        all_goals contradiction
      have hstep : r.step? c = some { r with field := .bare (text ++ [c]) } := by
        rw [step?, hfield]
        simp only [if_neg hquote, hbehind, Option.none_or]
      rw [List.foldlM_cons, hstep]
      have ih := ih (r := { r with field := .bare (text ++ [c]) }) rfl
        fun c hc => hplain c (List.mem_cons_of_mem _ hc)
      rwa [List.append_assoc] at ih

theorem run_quoted (hfield : r.field = .quoted text) :
    (field.flatMap Text.escapeCsv).foldlM step? r =
      some { r with field := .quoted (text ++ field) } := by
  induction field generalizing r text with
  | nil =>
      rw [List.append_nil, ← hfield]
      rfl
  | cons c field ih =>
      have hstep : (Text.escapeCsv c).foldlM step? r =
          some { r with field := .quoted (text ++ [c]) } := by
        unfold Text.escapeCsv
        split
        · next hc => simp [step?, hfield, hc]
        · next hc => simp [step?, hfield, hc]
      have ih := ih (r := { r with field := .quoted (text ++ [c]) }) rfl
      rw [List.append_assoc] at ih
      rw [List.flatMap_cons, List.foldlM_append, hstep]
      exact ih

/-- A field is read up to the character behind it, be it written with quotes or not. -/
theorem run_csvField (hfield : r.field = .bare []) (hc : c = ',' ∨ c = '\n') :
    (Text.csvField field ++ [c]).foldlM step? r = r.behindField? field c := by
  rw [List.foldlM_append, Text.csvField]
  split
  · have hopen : r.step? '"' = some { r with field := .quoted [] } := by
      rw [step?, hfield]
      rfl
    rw [Text.quote, List.cons_append, List.foldlM_cons, hopen, Option.bind_eq_bind,
      Option.bind_some, List.foldlM_append, run_quoted rfl]
    rcases hc with rfl | rfl <;> rfl
  · next hplain =>
    rw [Bool.not_eq_true, List.any_eq_false] at hplain
    rw [run_bare hfield fun c hc => Bool.eq_false_iff.2 (hplain c hc)]
    rcases hc with rfl | rfl <;> rfl

/-! ## Records -/

theorem run_fields (hfield : r.field = .bare []) (fields : CsvRecord) (hne : fields ≠ []) :
    (CsvRecord.render fields).foldlM step? r =
      some { records := r.records ++ [r.fields ++ fields] } := by
  induction fields generalizing r with
  | nil => exact absurd rfl hne
  | cons field rest ih =>
      cases rest with
      | nil =>
          have hrender : CsvRecord.render [field] = Text.csvField field.toList ++ ['\n'] := by
            simp [CsvRecord.render]
          rw [hrender, run_csvField hfield (.inr rfl)]
          simp [behindField?, endRecord]
      | cons next rest =>
          have hrender : CsvRecord.render (field :: next :: rest) =
              Text.csvField field.toList ++ [','] ++ CsvRecord.render (next :: rest) := by
            simp [CsvRecord.render, List.intercalate_cons_cons]
          rw [hrender, List.foldlM_append, run_csvField hfield (.inl rfl)]
          have ih := ih (r := r.endField field.toList) rfl (List.cons_ne_nil _ _)
          simp only [behindField?, Option.bind_eq_bind, Option.bind_some, ih]
          simp [endField]

theorem run_records (before : List CsvRecord) {records : List CsvRecord}
    (hne : ∀ record ∈ records, record ≠ []) :
    (records.flatMap CsvRecord.render).foldlM step? { records := before } =
      some { records := before ++ records } := by
  induction records generalizing before with
  | nil =>
      rw [List.append_nil]
      rfl
  | cons record records ih =>
      obtain ⟨hrecord, hrecords⟩ := List.forall_mem_cons.1 hne
      rw [List.flatMap_cons, List.foldlM_append, run_fields rfl record hrecord]
      have ih := ih (before ++ [record]) hrecords
      rwa [List.append_assoc] at ih

end Reader

/-- Records are read back from their text, whatever their fields hold. -/
theorem readAll?_render {records : List CsvRecord} (hne : ∀ record ∈ records, record ≠ []) :
    readAll? (records.flatMap render) = some records := by
  rw [readAll?, Reader.run_records [] hne]
  rfl

/-- A quote that is written twice is read once; one that stands alone makes no record. -/
example : readAll? "a,\"b,\"\"c\"\n".toList = some [["a", "b,\"c"]] ∧
    readAll? "a\"b,c\n".toList = none := by
  decide +kernel

end CsvRecord

/-! ## The table -/

namespace Table

variable (routines : List Routine)

theorem records_eq :
    records routines = columnNames :: routines.flatMap fun f =>
      f.graph.blocks.flatMap fun b => b.instructions.map (record f.name) := by
  simp [records, FlowGraph.instructions, List.map_flatMap]

/--
The table is read back as the names of the columns and one record for each instruction, in the order
of the routines, the blocks and the instructions. Addresses and words are written with eight
hexadecimal digits, from which they are read back.
-/
theorem table_reads_back :
    CsvRecord.readAll? (render routines).toList =
        some (["function", "address", "opcode", "mnemonic", "operands", "comment"] ::
          routines.flatMap fun f => f.graph.blocks.flatMap fun b => b.instructions.map fun insn =>
            [f.name, hex8 insn.address, hex8 insn.word, insn.mnemonic,
              ", ".intercalate insn.operands, insn.comment.getD ""]) ∧
      ∀ word : Word, Operand.value? (hex8 word) = some word ∧
        ∃ digits, hex8 word = String.ofList ('0' :: 'x' :: digits) ∧ digits.length = 8 ∧
          ∀ c ∈ digits, c ∈ "0123456789abcdef".toList := by
  refine ⟨?_, fun word => ⟨Operand.value?_hex8 word, hexDigits8 word.toNat, rfl,
    length_hexDigits8 word.toNat_lt, fun c hc => mem_hexDigits8 hc⟩⟩
  have hne : ∀ record ∈ records routines, record ≠ [] := by
    intro record hrecord
    rw [records, List.mem_cons] at hrecord
    rcases hrecord with rfl | hrecord
    · exact List.cons_ne_nil _ _
    · obtain ⟨f, -, hrecord⟩ := List.mem_flatMap.1 hrecord
      obtain ⟨insn, -, rfl⟩ := List.mem_map.1 hrecord
      exact List.cons_ne_nil _ _
  rw [render, String.toList_ofList, CsvRecord.readAll?_render hne, records_eq]
  rfl

end Table

end FirmwareLift
