import FirmwareLift.Detection
import FirmwareLift.Discovery
import FirmwareLift.Output
import FirmwareLift.Pseudocode.Walk

/-!
# Sessions

A session takes one image through the stages of the analysis. Every stage needs the session to have
come far enough, may be repeated, and replaces what it found before; a stage that is called too
early fails and changes nothing.
-/

namespace FirmwareLift

/-- How far a session has come. -/
inductive Stage where
  | unloaded
  | loaded
  | entryAnalyzed
  | functionsDiscovered
  | functionsAnalyzed
  | decompiled
deriving DecidableEq, Repr

namespace Stage

def order : Stage → Nat
  | unloaded => 0
  | loaded => 1
  | entryAnalyzed => 2
  | functionsDiscovered => 3
  | functionsAnalyzed => 4
  | decompiled => 5

def text : Stage → String
  | unloaded => "unloaded"
  | loaded => "loaded"
  | entryAnalyzed => "entry analyzed"
  | functionsDiscovered => "functions discovered"
  | functionsAnalyzed => "functions analyzed"
  | decompiled => "decompiled"

end Stage

/-- A stage was called before the session had come to the stage it needs. -/
structure StageError where
  needed : Stage
  current : Stage
deriving DecidableEq, Repr

def StageError.message (error : StageError) : String :=
  s!"Invalid decompiler state: stage needs state '{error.needed.text}'" ++
    s!", session is '{error.current.text}'"

def Bounds.toRoutine (bounds : Bounds) : Routine where
  start := bounds.start
  stop := bounds.stop
  name := bounds.name

structure Session where
  descriptor : Descriptor
  idioms : IdiomLibrary
  image : Image
  entry : Address
  routines : List Routine
  stage : Stage

/-- A percentage and what is being done. -/
abbrev Progress := Nat × String

namespace Session

/-- A session without an image; it knows the common idioms. -/
def new (descriptor : Descriptor) : Session where
  descriptor := descriptor
  idioms := .common
  image := ⟨descriptor.flashBase, #[]⟩
  entry := descriptor.entry
  routines := []
  stage := .unloaded

variable (s : Session)

/-- Takes another image; the descriptor and the idioms stay. -/
def load (bytes : Array UInt8) : Session :=
  { s with
    image := ⟨s.descriptor.flashBase, bytes⟩
    entry := s.descriptor.entry
    routines := []
    stage := .loaded }

def register (idiom : Idiom) : Session :=
  { s with idioms := s.idioms.register idiom }

/-- What `stage` gives, or the failure of a session that has not come to the stage it needs. -/
@[macro_inline] def whenAt {α : Type} (needed : Stage) (stage : α × Session) :
    Except StageError (α × Session) :=
  if s.stage.order < needed.order then .error ⟨needed, s.stage⟩ else .ok stage

/-- The reset handler of the image. -/
def resolvedEntry : Address :=
  s.image.followEntry s.descriptor.knownFunctions s.descriptor.entry

/-- Finds the reset handler. A session that has come further stays where it is. -/
def analyzeEntry : Except StageError (Address × Session) :=
  s.whenAt .loaded
    (s.resolvedEntry,
      { s with
        entry := s.resolvedEntry
        stage := if s.stage = .loaded then .entryAnalyzed else s.stage })

def discoveredRoutines : List Routine :=
  (s.descriptor.discover s.image s.entry).map Bounds.toRoutine

/-- Finds the functions; returns their number. -/
def discover : Except StageError (Nat × Session) :=
  s.whenAt .entryAnalyzed
    (s.discoveredRoutines.length,
      { s with routines := s.discoveredRoutines, stage := .functionsDiscovered })

/-- What is reported behind each routine: how many percent of the routines are analyzed. -/
def analysisProgress (routines : List Routine) : List Progress :=
  routines.zipIdx.map fun (f, index) => ((index + 1) * 100 / routines.length, f.name)

def analyzeRoutine (f : Routine) : Routine :=
  f.analyze s.image s.descriptor.knownFunctions s.descriptor.analysis.loopHeuristic

/-- Analyzes the routines; returns what is reported on the way. -/
def analyze : Except StageError (List Progress × Session) :=
  s.whenAt .functionsDiscovered
    (analysisProgress s.routines,
      { s with routines := s.routines.map s.analyzeRoutine, stage := .functionsAnalyzed })

/-- The outcome of a pass that counts what it finds in the routines. -/
def withRoutines (found : Nat × List Routine) : Nat × Session :=
  (found.1, { s with routines := found.2 })

/-- Comments API calls and register accesses, and infers the signatures again. -/
def detectApis : Except StageError (Nat × Session) :=
  s.whenAt .functionsAnalyzed
    (s.withRoutines
      ((s.descriptor.detectApis s.routines).map id fun routines =>
        routines.map Routine.inferSignature))

def detectTasks : Except StageError (Nat × Session) :=
  s.whenAt .functionsAnalyzed (s.withRoutines (s.descriptor.detectTasks s.routines))

def detectHandlers : Except StageError (Nat × Session) :=
  s.whenAt .functionsAnalyzed (s.withRoutines (s.descriptor.detectHandlers s.routines))

/-- Writes the pseudocode of all routines. -/
def writePseudocode : Session :=
  { s with
    routines := s.routines.map fun f => { f with pseudocode := f.definition s.idioms }
    stage := .decompiled }

def listing : String :=
  pseudocodeListing s.descriptor.name s.routines

/-- What a run of all stages reports first. -/
def started : Progress := (0, "Analyzing entry point")

/-- All that a run of all stages reports, given what the analysis of the routines reports. -/
def overallProgress (analysis : List Progress) : List Progress :=
  [started, (5, "Discovering functions")] ++
    analysis.map (fun (percent, name) => (10 + percent * 70 / 100, s!"Analyzing {name}")) ++
    [(85, "Detecting APIs, tasks and interrupt handlers"), (90, "Generating pseudo-code"),
      (100, "Done")]

/-- Runs all stages but the last in order; returns what the analysis of the routines reports. -/
def runStages : Except StageError (List Progress × Session) := do
  let (_, s) ← s.analyzeEntry
  let (_, s) ← s.discover
  let (analysis, s) ← s.analyze
  let (_, s) ← s.detectApis
  let (_, s) ← s.detectTasks
  let (_, s) ← s.detectHandlers
  return (analysis, s)

/--
Runs all stages in order. Returns what is reported on the way beside the outcome: each stage brings
the session to where the next one needs it, so a run that fails has only reported its start.
-/
def decompile : List Progress × Except StageError Session :=
  match s.runStages with
  | .ok (analysis, s) => (overallProgress analysis, .ok s.writePseudocode)
  | .error error => ([started], .error error)

/-! ## Views -/

def assembly : String :=
  annotatedAssembly s.routines

def rendered (format : OutputFormat) (routines : List Routine) : String :=
  format.render s.descriptor.name routines

def strings : List (Address × String) :=
  s.image.strings s.descriptor.analysis.minStringLength.toNat

def constants : List (Address × Word) :=
  s.descriptor.constants s.image

def usage : OrderedMap String Nat :=
  apiUsage s.routines

def routineAt? (address : Address) : Option Routine :=
  s.routines.find? fun f => f.contains address

end Session

end FirmwareLift
