import FirmwareLift.Descriptor.Read
import FirmwareLift.Proofs.Json.Record

/-!
# Descriptors are read back

A descriptor is read back from its JSON. From an object with some of its fields, at both levels, the
descriptor is read that has these fields and agrees with the ESP32 in all others.
-/

namespace FirmwareLift

open Json (Record)

/-! ## Records without defaults -/

theorem LoopHeuristic.ofJson?_toJson (heuristic : LoopHeuristic) :
    ofJson? heuristic.toJson = some heuristic := by
  cases heuristic <;> rfl

theorem ApiFamily.ofJson?_toJson (f : ApiFamily) : ofJson? f.toJson = some f := by
  cases f
  rfl

theorem Peripheral.ofJson?_toJson (p : Peripheral) : ofJson? p.toJson = some p := by
  have hrecord : p.toJson.record? fieldNames =
      some [("name", .ofString p.name), ("base", .natural p.base.toNat),
        ("size", .natural p.size.toNat)] := rfl
  rw [ofJson?, hrecord]
  simp [Record.get?, Json.text?_ofString, Json.word?_natural]

/-! ## Options -/

namespace AnalysisOptions

variable (a : AnalysisOptions)

def fields : Record :=
  [("max_functions", .natural a.maxFunctions.toNat),
    ("last_function_window", .natural a.lastFunctionWindow.toNat),
    ("loop_heuristic", a.loopHeuristic.toJson),
    ("min_string_length", .natural a.minStringLength.toNat)]

/-- The options that agree with `a` in the kept fields and with the ESP32 in all others. -/
def keeping (keep : String → Bool) : AnalysisOptions :=
  let base := Descriptor.esp32.analysis
  { maxFunctions := if keep "max_functions" then a.maxFunctions else base.maxFunctions
    lastFunctionWindow :=
      if keep "last_function_window" then a.lastFunctionWindow else base.lastFunctionWindow
    loopHeuristic := if keep "loop_heuristic" then a.loopHeuristic else base.loopHeuristic
    minStringLength :=
      if keep "min_string_length" then a.minStringLength else base.minStringLength }

variable {a} {keep : String → Bool} {json : Json}

theorem plain_of_mem_fields : ∀ field ∈ a.fields, field.2.Plain := by
  simp only [fields, List.forall_mem_cons]
  exact ⟨trivial, trivial, rfl, trivial, by simp⟩

theorem ofJson?_of_selects (h : json.Selects keep a.fields) :
    ofJson? json = some (a.keeping keep) := by
  obtain ⟨given, rfl, hgiven⟩ := h
  have hnodup : (a.fields.map (·.1)).Nodup := by
    change fieldNames.Nodup
    decide
  have hrecord : (Json.ofFields given).record? fieldNames = some given :=
    Json.record?_ofFields hnodup hgiven
  -- Each field under a name of its own.
  have hmem : ∀ field ∈ a.fields, field ∈ a.fields := fun _ h => h
  simp only [fields, List.forall_mem_cons] at hmem
  obtain ⟨hmax, hwindow, hloops, hlength, -⟩ := hmem
  rw [ofJson?, hrecord]
  simp only [Option.bind_eq_bind, Option.bind_some,
    Record.getD_of_perm hnodup hgiven hmax (Json.word64?_natural _),
    Record.getD_of_perm hnodup hgiven hwindow (Json.word?_natural _),
    Record.getD_of_perm hnodup hgiven hloops (LoopHeuristic.ofJson?_toJson _),
    Record.getD_of_perm hnodup hgiven hlength (Json.word64?_natural _)]
  rfl

end AnalysisOptions

/-! ## Descriptors -/

namespace Descriptor

variable (d : Descriptor)

/-- The fields of a descriptor, with the object that holds the options. -/
def fields (analysis : Json) : Record :=
  [("name", .ofString d.name),
    ("flash_base", .natural d.flashBase.toNat),
    ("flash_size", .natural d.flashSize.toNat),
    ("ram_base", .natural d.ramBase.toNat),
    ("ram_size", .natural d.ramSize.toNat),
    ("entry_point", (d.entryPoint.map fun address => .natural address.toNat).getD .null),
    ("known_functions",
      .ofFields (d.knownFunctions.toList.map fun entry => (entry.1, .natural entry.2.toNat))),
    ("api_prefixes", .array (d.apiFamilies.map ApiFamily.toJson)),
    ("peripherals", .array (d.peripherals.map Peripheral.toJson)),
    ("analysis", analysis)]

/--
The descriptor that agrees with `d` in the kept fields and in the kept options, and with the ESP32
in all others.
-/
def keeping (keep keepOption : String → Bool) : Descriptor where
  name := if keep "name" then d.name else esp32.name
  flashBase := if keep "flash_base" then d.flashBase else esp32.flashBase
  flashSize := if keep "flash_size" then d.flashSize else esp32.flashSize
  ramBase := if keep "ram_base" then d.ramBase else esp32.ramBase
  ramSize := if keep "ram_size" then d.ramSize else esp32.ramSize
  entryPoint := if keep "entry_point" then d.entryPoint else esp32.entryPoint
  knownFunctions := if keep "known_functions" then d.knownFunctions else esp32.knownFunctions
  apiFamilies := if keep "api_prefixes" then d.apiFamilies else esp32.apiFamilies
  peripherals := if keep "peripherals" then d.peripherals else esp32.peripherals
  analysis := if keep "analysis" then d.analysis.keeping keepOption else esp32.analysis

/-- The base is a multiple of four, and at least one function may be found. -/
def Valid : Prop :=
  4 ∣ d.flashBase.toNat ∧ 1 ≤ d.analysis.maxFunctions.toNat

/--
The value is written so that it can be read, and from every text of it the descriptor is read, or an
error that names what is not valid about it.
-/
def Denotes (json : Json) (d : Descriptor) : Prop :=
  Json.parse? json.render = some json ∧
    ∀ text, Json.parse? text = some json →
      (d.Valid → parse text = .ok d) ∧
        (¬ d.Valid → ∃ error, parse text = .error error ∧ error ≠ .unreadable)

variable {d} {keep keepOption : String → Bool} {analysis json : Json}

theorem plain_of_mem_fields (hanalysis : analysis.Plain) :
    ∀ field ∈ d.fields analysis, field.2.Plain := by
  have hentry : ((d.entryPoint.map fun address => Json.natural address.toNat).getD .null).Plain := by
    cases d.entryPoint <;> trivial
  have hfunctions : (Json.ofFields (d.knownFunctions.toList.map
      fun entry => (entry.1, .natural entry.2.toNat))).Plain :=
    Json.plainFields_of_forall (List.forall_mem_map.2 fun _ _ => trivial)
  have hfamilies : (Json.array (d.apiFamilies.map ApiFamily.toJson)).Plain :=
    Json.plain_array <| List.forall_mem_map.2 fun f _ =>
      Json.plainFields_of_forall (List.forall_mem_cons.2 ⟨rfl, List.forall_mem_singleton.2 rfl⟩)
  have hperipherals : (Json.array (d.peripherals.map Peripheral.toJson)).Plain :=
    Json.plain_array <| List.forall_mem_map.2 fun p _ =>
      Json.plainFields_of_forall (List.forall_mem_cons.2
        ⟨rfl, List.forall_mem_cons.2 ⟨trivial, List.forall_mem_singleton.2 trivial⟩⟩)
  simp only [fields, List.forall_mem_cons]
  exact ⟨rfl, trivial, trivial, trivial, trivial, hentry, hfunctions, hfamilies, hperipherals,
    hanalysis, by simp⟩

theorem nullable?_entryPoint (entryPoint : Option Address) :
    Json.nullable? Json.word?
        ((entryPoint.map fun address => .natural address.toNat).getD .null) = some entryPoint := by
  cases entryPoint with
  | none => rfl
  | some address =>
      change (Json.word? (.natural address.toNat)).map some = _
      rw [Json.word?_natural]
      rfl

theorem ofJson?_of_selects (hanalysis : analysis.Selects keepOption d.analysis.fields)
    (h : json.Selects keep (d.fields analysis)) :
    ofJson? json = some (d.keeping keep keepOption) := by
  obtain ⟨given, rfl, hgiven⟩ := h
  have hnodup : ((d.fields analysis).map (·.1)).Nodup := by
    change fieldNames.Nodup
    decide
  have hrecord : (Json.ofFields given).record? fieldNames = some given :=
    Json.record?_ofFields hnodup hgiven
  -- Each field under a name of its own.
  have hmem : ∀ field ∈ d.fields analysis, field ∈ d.fields analysis := fun _ h => h
  simp only [fields, List.forall_mem_cons] at hmem
  obtain ⟨hname, hflashBase, hflashSize, hramBase, hramSize, hentry, hfunctions, hfamilies,
    hperipherals, hoptions, -⟩ := hmem
  have htable : Record.getD given "known_functions"
      (fun json => (json.entries? Json.word?).map OrderedMap.ofList) esp32.knownFunctions =
        some (if keep "known_functions" then d.knownFunctions else esp32.knownFunctions) := by
    refine Record.getD_of_perm hnodup hgiven hfunctions ?_
    rw [Json.entries?_ofFields Json.word?_natural, Option.map_some, OrderedMap.ofList_toList]
  rw [ofJson?, hrecord]
  simp only [Option.bind_eq_bind, Option.bind_some,
    Record.getD_of_perm hnodup hgiven hname (Json.text?_ofString _),
    Record.getD_of_perm hnodup hgiven hflashBase (Json.word?_natural _),
    Record.getD_of_perm hnodup hgiven hflashSize (Json.word?_natural _),
    Record.getD_of_perm hnodup hgiven hramBase (Json.word?_natural _),
    Record.getD_of_perm hnodup hgiven hramSize (Json.word?_natural _),
    Record.getD_of_perm hnodup hgiven hentry (nullable?_entryPoint _),
    htable,
    Record.getD_of_perm hnodup hgiven hfamilies (Json.items?_array ApiFamily.ofJson?_toJson _),
    Record.getD_of_perm hnodup hgiven hperipherals (Json.items?_array Peripheral.ofJson?_toJson _),
    Record.getD_of_perm hnodup hgiven hoptions (AnalysisOptions.ofJson?_of_selects hanalysis)]
  rfl

/-! ## Validity -/

theorem valid_iff : d.Valid ↔ d.flashBase % 4 = 0 ∧ d.analysis.maxFunctions ≠ 0 := by
  have hbase : 4 ∣ d.flashBase.toNat ↔ d.flashBase % 4 = 0 := by
    rw [← UInt32.toNat_inj, UInt32.toNat_mod]
    exact Nat.dvd_iff_mod_eq_zero
  have hmax : 1 ≤ d.analysis.maxFunctions.toNat ↔ d.analysis.maxFunctions ≠ 0 := by
    rw [Ne, ← UInt64.toNat_inj]
    exact Nat.one_le_iff_ne_zero
  rw [Valid, hbase, hmax]

theorem validate_of_valid (h : d.Valid) : d.validate = .ok d := by
  obtain ⟨hbase, hmax⟩ := valid_iff.1 h
  rw [validate, if_neg (not_not_intro hbase), if_neg hmax]

theorem validate_of_not_valid (h : ¬ d.Valid) :
    ∃ error, d.validate = .error error ∧ error ≠ .unreadable := by
  rw [valid_iff] at h
  unfold validate
  split
  · exact ⟨_, rfl, DescriptorError.noConfusion⟩
  · next hbase =>
    split
    · exact ⟨_, rfl, DescriptorError.noConfusion⟩
    · next hmax => exact absurd ⟨Decidable.not_not.1 hbase, hmax⟩ h

theorem denotes_of_ofJson? (hplain : json.Plain) (h : ofJson? json = some d) :
    Denotes json d := by
  refine ⟨Json.parse?_render hplain, fun text htext => ?_⟩
  have hparse : parse text = d.validate := by
    simp only [parse, htext, Descriptor.read, h]
  rw [hparse]
  exact ⟨validate_of_valid, validate_of_not_valid⟩

/-- All fields are kept. -/
theorem keeping_all (d : Descriptor) : d.keeping (fun _ => true) (fun _ => true) = d := rfl

/--
The JSON of a descriptor denotes that descriptor. An object with any of its fields, and with any of
its options, denotes the descriptor that takes all others from the ESP32.
-/
theorem parse_given_fields (d : Descriptor) :
    Denotes d.toJson d ∧
      ∀ (keep keepOption : String → Bool) (analysis json : Json),
        analysis.Selects keepOption d.analysis.fields → json.Selects keep (d.fields analysis) →
          Denotes json (d.keeping keep keepOption) := by
  have hgiven : ∀ (keep keepOption : String → Bool) (analysis json : Json),
      analysis.Selects keepOption d.analysis.fields → json.Selects keep (d.fields analysis) →
        Denotes json (d.keeping keep keepOption) := by
    intro keep keepOption analysis json hanalysis hjson
    have hplain := hanalysis.plain AnalysisOptions.plain_of_mem_fields
    exact denotes_of_ofJson? (hjson.plain (plain_of_mem_fields hplain))
      (ofJson?_of_selects hanalysis hjson)
  have hall : ∀ fields : Record, (Json.ofFields fields).Selects (fun _ => true) fields :=
    fun fields => ⟨fields, rfl, by simp⟩
  have hwhole := hgiven _ _ _ _ (hall d.analysis.fields) (hall (d.fields d.analysis.toJson))
  rw [keeping_all] at hwhole
  exact ⟨hwhole, hgiven⟩

/-- A device of its own name that stops at the third function. -/
def modest : Descriptor :=
  { esp32 with name := "test", analysis := { esp32.analysis with maxFunctions := 3 } }

def modestOptions : Json :=
  .ofFields [("max_functions", .natural 3)]

/-- The options stand in front of the name. -/
def modestJson : Json :=
  .ofFields [("analysis", modestOptions), ("name", .ofString "test")]

theorem modest_given_in_part :
    (modestOptions.Selects (· = "max_functions") modest.analysis.fields ∧
      modestJson.Selects (· ∈ ["name", "analysis"]) (modest.fields modestOptions)) ∧
    Denotes modest.toJson modest ∧
      Denotes modestJson
        (modest.keeping (· ∈ ["name", "analysis"]) (· = "max_functions")) := by
  have hoptions : modestOptions.Selects (· = "max_functions") modest.analysis.fields :=
    ⟨_, rfl, .refl _⟩
  have hjson : modestJson.Selects (· ∈ ["name", "analysis"]) (modest.fields modestOptions) :=
    ⟨_, rfl, .swap _ _ _⟩
  have hgiven := parse_given_fields modest
  exact ⟨⟨hoptions, hjson⟩, hgiven.1, hgiven.2 _ _ _ _ hoptions hjson⟩

end Descriptor

end FirmwareLift
