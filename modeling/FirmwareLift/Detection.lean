import FirmwareLift.Descriptor.Basic
import FirmwareLift.FlowGraph.Basic
import FirmwareLift.OrderedMap
import FirmwareLift.Routine

/-!
# Detection

What the constants that are loaded in a block tell of its calls and stores: the use of the API and of
peripheral registers, tasks, and interrupt handlers.
-/

namespace FirmwareLift

/-! ## Constants in registers

The constants that registers hold at each instruction of a block, as far as loads of constants in
the same block tell. -/

abbrev Constants := OrderedMap String Word

namespace Constants

/-- What is known behind an instruction: a load gives a constant, any other definition takes it. -/
def step (known : Constants) (insn : Instruction) : Constants :=
  match insn.defined? with
  | none => known
  | some register =>
    let constant? :=
      if insn.mnemonic = "movi" ∨ insn.mnemonic = "l32r" then insn.operands[1]?.bind Operand.value?
      else none
    match constant? with
    | some constant => known.insert register constant
    | none => known.erase register

/-- Each instruction of a list with what is known before it. -/
def scan (known : Constants) : List Instruction → List (Instruction × Constants)
  | [] => []
  | insn :: rest => (insn, known) :: scan (known.step insn) rest

/-- The constant that a call passes as an argument. -/
def argument? (known : Constants) (call : Instruction) (index : Nat) : Option Word :=
  (call.argumentRegister? index).bind known.get?

end Constants

/-- The instructions of a block with the constants known before each of them. -/
def Block.withConstants (b : Block) : List (Instruction × Constants) :=
  Constants.scan .empty b.instructions

def FlowGraph.withConstants (g : FlowGraph) : List (Instruction × Constants) :=
  g.blocks.flatMap Block.withConstants

/-- The function that a call goes to: the known name of its numeric target, or the name it shows. -/
def Descriptor.calledName? (d : Descriptor) (insn : Instruction) : Option String :=
  if insn.isCall then
    match insn.target? with
    | some address => d.knownFunctions.nameAt? address
    | none => insn.displayName?
  else none

/-! ## API calls and register accesses

Comments on the calls of known API families and on the stores to peripheral registers, and the
number of calls of each function of the API. -/

namespace Descriptor

variable (d : Descriptor)

/-- What a store to a peripheral window is called; its base register holds a known constant. -/
def storeNote? (known : Constants) (store : Instruction) : Option String := do
  let base ← known.get? (← store.operands[1]?)
  let offset ← Operand.value? (← store.operands[2]?)
  let peripheral ← d.peripheralAt? (base + offset)
  return s!"{d.name} {peripheral.name} register"

def callNote? (name : String) : Option String :=
  (d.apiFamily? name).map fun family => s!"{family}: {name}"

/-- The comment that an instruction should get. -/
def note? (known : Constants) (insn : Instruction) : Option String :=
  match d.calledName? insn with
  | some name => d.callNote? name
  | none => if insn.isStore then d.storeNote? known insn else none

/-- An instruction with its comment, and whether it got the comment only now. -/
def annotate (insn : Instruction) (known : Constants) : Instruction × Bool :=
  match d.note? known insn with
  | some note => (insn.annotate note, insn.comment.isNone)
  | none => (insn, false)

def annotated (instructions : List (Instruction × Constants)) : List (Instruction × Bool) :=
  instructions.map fun (insn, known) => d.annotate insn known

def annotateBlock (b : Block) : Block :=
  { b with instructions := (d.annotated b.withConstants).map (·.1) }

def annotateRoutine (f : Routine) : Routine :=
  { f with graph := { f.graph with blocks := f.graph.blocks.map d.annotateBlock } }

def newNotes (routines : List Routine) : Nat :=
  (d.annotated (routines.flatMap fun f => f.graph.withConstants)).countP (·.2)

/-- Comments all routines; returns the number of new comments beside them. -/
def detectApis (routines : List Routine) : Nat × List Routine :=
  (d.newNotes routines, routines.map d.annotateRoutine)

end Descriptor

/-- Counts the calls with a comment by the name that they show. -/
def apiUsage (routines : List Routine) : OrderedMap String Nat :=
  let calls := (routines.flatMap fun f => f.graph.instructions).filter fun insn =>
    insn.isCall && insn.comment.isSome
  (calls.filterMap Instruction.displayName?).foldl
    (fun usage name => usage.insert name ((usage.get? name).getD 0 + 1)) .empty

/-! ## Tasks

A routine is a task if a call creates a task with its address, or if it loops and calls the FreeRTOS
API. -/

/-- The entries of created tasks with their priorities, where these are known. -/
abbrev CreatedTasks := OrderedMap Address (Option Word)

namespace Descriptor

variable (d : Descriptor)

/-- The task that a call creates: its entry is argument 0 and its priority argument 4. -/
def createdTask? (insn : Instruction) (known : Constants) : Option (Address × Option Word) := do
  let name ← d.calledName? insn
  guard ("xTaskCreate".toList.isPrefixOf name.toList)
  let entry ← known.argument? insn 0
  return (entry, known.argument? insn 4)

/-- Of several calls that create the same task, the last one counts. -/
def createdTasks (routines : List Routine) : CreatedTasks :=
  .ofList <| (routines.flatMap fun f => f.graph.withConstants).filterMap fun (insn, known) =>
    d.createdTask? insn known

end Descriptor

namespace Routine

def callsFreeRtos (f : Routine) : Bool :=
  f.graph.instructions.any fun insn => insn.isCall && insn.commentHas "FreeRTOS"

/-- Marks a routine that is created as a task, or that loops and calls the FreeRTOS API. -/
def markTask (created : CreatedTasks) (f : Routine) : Routine :=
  match created.get? f.start with
  | some priority => { f with isTask := true, taskPriority := priority }
  | none =>
    if !f.graph.loops.isEmpty && f.callsFreeRtos then { f with isTask := true } else f

end Routine

/-- Marks the tasks; returns the number of routines that are marked now beside them. -/
def Descriptor.detectTasks (d : Descriptor) (routines : List Routine) : Nat × List Routine :=
  let marked := routines.map (Routine.markTask (d.createdTasks routines))
  (marked.countP (·.isTask), marked)

/-! ## Interrupt handlers

A routine handles interrupts if it returns from one, if a call registers its address, or if its name
says so. -/

/-- The argument of a registering call that holds the handler. -/
def handlerArgument (name : String) : Nat :=
  if "esp_intr_alloc".toList.isPrefixOf name.toList then 2 else 1

namespace Descriptor

variable (d : Descriptor)

/-- The handler that a call of an interrupt API registers. -/
def registeredHandler? (insn : Instruction) (known : Constants) : Option Address := do
  let name ← d.calledName? insn
  let family ← d.apiFamily? name
  guard (Text.contains "Interrupt".toList family.toList)
  known.argument? insn (handlerArgument name)

def registeredHandlers (routines : List Routine) : List Address :=
  (routines.flatMap fun f => f.graph.withConstants).filterMap fun (insn, known) =>
    d.registeredHandler? insn known

end Descriptor

/-- Whether a routine is a handler, given the addresses of registered handlers. -/
def Routine.handlesInterrupts (registered : List Address) (f : Routine) : Bool :=
  f.graph.instructions.any (fun insn => insn.mnemonic = "rfe") || f.start ∈ registered ||
    Text.containsIgnoringCase "isr".toList f.name.toList

def Routine.markHandler (registered : List Address) (f : Routine) : Routine :=
  if f.handlesInterrupts registered then { f with isInterruptHandler := true } else f

/-- Marks the handlers; returns the number of those that this run finds beside them. -/
def Descriptor.detectHandlers (d : Descriptor) (routines : List Routine) : Nat × List Routine :=
  let registered := d.registeredHandlers routines
  (routines.countP (Routine.handlesInterrupts registered),
    routines.map (Routine.markHandler registered))

end FirmwareLift
