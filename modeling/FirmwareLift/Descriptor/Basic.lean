import FirmwareLift.Instruction
import FirmwareLift.OrderedMap

/-!
# Descriptors

What is known about a target: its memory map, the functions at known addresses, the families of its
API and its peripherals, and the options of the analysis.
-/

namespace FirmwareLift

/-! ## Symbol tables

The names of known addresses. Several names may share an address: a name that is looked up is the
first of them, the one that a decoded operand shows is the last. -/

abbrev SymbolTable := OrderedMap String Address

namespace SymbolTable

def namesAt (table : SymbolTable) (address : Address) : List String :=
  (table.toList.filter fun entry => entry.2 = address).map (·.1)

def nameAt? (table : SymbolTable) (address : Address) : Option String :=
  (table.namesAt address).head?

def shownAt? (table : SymbolTable) (address : Address) : Option String :=
  (table.namesAt address).getLast?

end SymbolTable

/-! ## Targets -/

/-- How the back edges of loops are told from other edges. -/
inductive LoopHeuristic where
  /-- The header dominates the tail. -/
  | dominance
  /-- The header starts at or below the start of the tail. -/
  | addressOrder
deriving DecidableEq, Repr

/-- The functions whose names start with `stem` belong to `family`. -/
structure ApiFamily where
  stem : String
  family : String
deriving DecidableEq

/-- A window of memory-mapped registers. -/
structure Peripheral where
  name : String
  base : Address
  size : Word
deriving DecidableEq

structure AnalysisOptions where
  /-- No more functions than this are discovered. -/
  maxFunctions : UInt64 := 100
  /-- The size of the last function, which no other function bounds. -/
  lastFunctionWindow : Word := 0x1000
  loopHeuristic : LoopHeuristic := .dominance
  /-- Runs of printable characters that are shorter are no strings. -/
  minStringLength : UInt64 := 5
deriving DecidableEq

structure Descriptor where
  name : String
  flashBase : Address
  flashSize : Word
  ramBase : Address
  ramSize : Word
  entryPoint : Option Address
  knownFunctions : SymbolTable
  /-- In order of priority. -/
  apiFamilies : List ApiFamily
  peripherals : List Peripheral
  analysis : AnalysisOptions
deriving DecidableEq

/-- An address in a window of `size` bytes from `base` on, which ends with the address space. -/
def inWindow (base : Address) (size : Word) (address : Address) : Bool :=
  base ≤ address && address - base < size

namespace Descriptor

/-- An ESP32 application in instruction flash. -/
def esp32 : Descriptor where
  name := "ESP32"
  flashBase := 0x400d0000
  flashSize := 0x00400000
  ramBase := 0x3ffb0000
  ramSize := 0x00050000
  entryPoint := none
  knownFunctions := .ofList [
    ("ets_delay_us", 0x40008534),
    ("ets_printf", 0x40007d54),
    ("gpio_set_direction", 0x40009000),
    ("gpio_set_level", 0x40009040),
    ("gpio_get_level", 0x40009080),
    ("gpio_isr_handler_add", 0x400090c0),
    ("uart_write_bytes", 0x4000a000),
    ("uart_read_bytes", 0x4000a040),
    ("esp_wifi_connect", 0x4000b000),
    ("esp_intr_alloc", 0x4000c000),
    ("xTaskCreate", 0x4000d000),
    ("xTaskCreatePinnedToCore", 0x4000d040),
    ("vTaskDelay", 0x4000d080),
    ("vTaskDelete", 0x4000d0c0),
    ("xQueueSend", 0x4000e000),
    ("xQueueReceive", 0x4000e040),
    ("printf", 0x4000f000)]
  apiFamilies := [
    ⟨"gpio_isr_", "ESP32 Interrupt API"⟩,
    ⟨"esp_intr_", "ESP32 Interrupt API"⟩,
    ⟨"gpio_", "ESP32 GPIO API"⟩,
    ⟨"uart_", "ESP32 UART API"⟩,
    ⟨"esp_wifi_", "ESP32 WiFi API"⟩,
    ⟨"ets_", "ESP32 ROM API"⟩,
    ⟨"xTask", "FreeRTOS Task API"⟩,
    ⟨"vTask", "FreeRTOS Task API"⟩,
    ⟨"xQueue", "FreeRTOS Queue API"⟩,
    ⟨"printf", "libc"⟩]
  peripherals := [
    ⟨"UART", 0x3ff40000, 0x1000⟩,
    ⟨"GPIO", 0x3ff44000, 0x1000⟩,
    ⟨"RTC", 0x3ff48000, 0x1000⟩,
    ⟨"TIMER", 0x3ff5f000, 0x1000⟩]
  analysis := {}

variable (d : Descriptor)

/-- The address of the first instruction after a reset. -/
def entry : Address :=
  d.entryPoint.getD d.flashBase

/-- The family of a function: the first one whose stem starts the name. -/
def apiFamily? (name : String) : Option String :=
  (d.apiFamilies.find? fun f => f.stem.toList.isPrefixOf name.toList).map (·.family)

def peripheralAt? (address : Address) : Option Peripheral :=
  d.peripherals.find? fun p => inWindow p.base p.size address

def isRam (address : Address) : Bool :=
  inWindow d.ramBase d.ramSize address

end Descriptor

inductive DescriptorError where
  /-- The text is no JSON, or its values do not fit the fields. -/
  | unreadable
  | misalignedBase (base : Address)
  | noFunctionsAllowed
deriving DecidableEq, Repr

def DescriptorError.reason : DescriptorError → String
  | unreadable => "JSON parse error"
  | misalignedBase base => s!"flash base {Text.Numeral.hex8 base} is not word aligned"
  | noFunctionsAllowed => "max_functions must be at least 1"

def DescriptorError.message (error : DescriptorError) : String :=
  s!"Invalid architecture configuration: {error.reason}"

/-- Refuses a base that is not word aligned, then a limit that admits no function. -/
def Descriptor.validate (d : Descriptor) : Except DescriptorError Descriptor :=
  if d.flashBase % 4 ≠ 0 then .error (.misalignedBase d.flashBase)
  else if d.analysis.maxFunctions = 0 then .error .noFunctionsAllowed
  else .ok d

end FirmwareLift
