import FirmwareLift.Pseudocode.Block
import FirmwareLift.Routine

/-!
# Pseudocode of graphs and routines

The walk that writes the blocks of a graph, and the definition of a routine around its lines.
-/

namespace FirmwareLift

/-! ## Structured walk

The pseudocode of a flow graph, by a depth-first walk from its entry. The walk keeps a stack of what
is still to be written. It writes a block once, and names a block that it meets again. -/

/-- How many of the ids below `count` are not in `seen`. -/
def unseen (count : Nat) (seen : OrderedSet BlockId) : Nat :=
  (List.range count).countP fun id => id ∉ seen

theorem countP_lt_countP {p q : Nat → Bool} {a : Nat} {l : List Nat} (hpq : ∀ x, p x → q x)
    (ha : a ∈ l) (hq : q a) (hp : ¬ p a) : l.countP p < l.countP q := by
  induction l with
  | nil => simp at ha
  | cons b rest ih =>
    have hle : rest.countP p ≤ rest.countP q := List.countP_mono_left fun x _ => hpq x
    rcases List.mem_cons.1 ha with rfl | ha
    · simp [hq, hp]
      omega
    · have := ih ha
      by_cases h : p b
      · simp [h, hpq b h, this]
      · simp only [h, List.countP_cons, Bool.false_eq_true, ↓reduceIte]
        omega

theorem unseen_insert_lt {count id : BlockId} {seen : OrderedSet BlockId} (hid : id < count)
    (h : ¬ id ∈ seen) : unseen count (seen.insert id) < unseen count seen :=
  countP_lt_countP (a := id) (by simp +contextual) (by simpa using hid) (by simpa using h) (by simp)

/-- What the walk meets. -/
inductive Visit where
  | first (b : Block) (depth : Nat)
  | again (b : Block) (depth : Nat)
  | line (line : Line)
deriving DecidableEq

/-- Meets what is pending, the first of it first; `seen` holds the blocks met before. -/
def FlowGraph.walk (g : FlowGraph) (seen : OrderedSet BlockId) : List Pending → List Visit
  | [] => []
  | .line line :: rest => .line line :: walk g seen rest
  | .block id depth :: rest =>
    match h : g.block? id with
    | none => walk g seen rest
    | some b =>
      if hseen : id ∈ seen then .again b depth :: walk g seen rest
      else
        have := unseen_insert_lt (List.getElem?_eq_some_iff.1 h).1 hseen
        have := (Ending.ofBlock g b).length_pending_le depth
        .first b depth :: walk g (seen.insert id) ((Ending.ofBlock g b).pending depth ++ rest)
-- A first visit leaves one block fewer unseen, for at most four entries that it puts on the stack.
termination_by pending => 5 * unseen g.blocks.length seen + pending.length
decreasing_by
  all_goals simp only [List.length_cons, List.length_append]
  all_goals omega

/-- The lines of a visit: a block with its body and its ending, or only the place of the block. -/
def Visit.lines (g : FlowGraph) (library : IdiomLibrary) (returnsValue : Bool) : Visit → List Line
  | first b depth =>
    (library.statements b.body ++ (Ending.ofBlock g b).texts returnsValue).map (Line.mk depth)
  | again b depth => [⟨depth, s!"// continues at {Text.Numeral.hex8 b.start}"⟩]
  | line l => [l]

namespace FlowGraph

variable (g : FlowGraph) (library : IdiomLibrary)

/-- The visits of a walk over the whole graph, which starts at depth `base`. -/
def visits (base : Nat) : List Visit :=
  g.walk .empty (g.entry.toList.map fun entry => .block entry base)

/-- The lines of the graph, the outermost of them at depth `base`. -/
def lines (returnsValue : Bool) (base : Nat) : List Line :=
  if g.entry.isNone then [⟨base, "// no code"⟩]
  else (g.visits base).flatMap (Visit.lines g library returnsValue)

/-- The statements of the graph without a function around them. -/
def structuredCode : String :=
  "\n".intercalate ((g.lines library false 0).map Line.render)

end FlowGraph

/-! ## Definitions

A routine as the C-like definition of a function: notes, signature, locals and body. -/

open Text.Numeral (hex8)

def Variable.declaration (v : Variable) : String :=
  s!"{v.type} {v.name}"

namespace Routine

variable (f : Routine)

def taskNote : String :=
  match f.taskPriority with
  | some priority => s!"// FreeRTOS task (priority {priority.toNat})"
  | none => "// FreeRTOS task"

/-- Comments that tell the range and the role of the routine. -/
def notes : List String :=
  [s!"// {f.name} @ {hex8 f.start}-{hex8 f.stop}"] ++
    (if f.isInterruptHandler then ["// ISR"] else []) ++ (if f.isTask then [f.taskNote] else [])

def parameterText : String :=
  if f.parameters.isEmpty then "void" else ", ".intercalate (f.parameters.map Variable.declaration)

def signature : String :=
  s!"{f.returnType} {f.name}({f.parameterText}) \x7b"

/-- The declarations of the locals, and an empty line behind them. -/
def declarations : List String :=
  if f.locals.isEmpty then []
  else f.locals.map (fun v => Line.render ⟨1, s!"{v.declaration};"⟩) ++ [""]

def body (library : IdiomLibrary) : List String :=
  (f.graph.lines library (f.returnType ≠ "void") 1).map Line.render

def definition (library : IdiomLibrary) : String :=
  String.join <| (f.notes ++ [f.signature] ++ f.declarations ++ f.body library ++ ["\x7d"]).map
    fun line => line ++ "\n"

end Routine

end FirmwareLift
