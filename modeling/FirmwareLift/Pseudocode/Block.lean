import FirmwareLift.FlowGraph.Basic
import FirmwareLift.Idiom.Library
import FirmwareLift.Statement

/-!
# Pseudocode of blocks

The statements of a block in front of the instruction that ends it, and what is written for that one.
-/

namespace FirmwareLift

/-! ## Bodies

The statements of a straight run of instructions. The run is cut into stretches: as much as an idiom
replaces where one matches, and single instructions elsewhere. -/

/-- A line of pseudocode and the number of constructs around it. -/
structure Line where
  depth : Nat
  text : String
deriving DecidableEq, Repr

/-- Four blanks for every construct around the line. -/
def Line.render (line : Line) : String :=
  String.ofList (List.replicate (4 * line.depth) ' ') ++ line.text

/-- Consecutive instructions and the statement that stands for them, if there is one. -/
structure Stretch where
  instructions : List Instruction
  statement : Option String
deriving DecidableEq

/-- The statement of one instruction with its comment; a call shows its comment as its name. -/
def Instruction.commentedStatement? (insn : Instruction) : Option String :=
  insn.statement?.map fun statement =>
    match insn.comment with
    | some comment => if insn.isCall then statement else s!"{statement}  // {comment}"
    | none => statement

namespace IdiomLibrary

def stretches (library : IdiomLibrary) : List Instruction → List Stretch
  | [] => []
  | insn :: rest =>
    match library.match? (insn :: rest) with
    | some found =>
      ⟨insn :: rest.take (found.consumed - 1), some found.statement⟩ ::
        stretches library (rest.drop (found.consumed - 1))
    | none => ⟨[insn], insn.commentedStatement?⟩ :: stretches library rest
termination_by body => body.length
decreasing_by
  · simp only [List.length_cons, List.length_drop]; omega
  · simp

/-- Every instruction of a body is in one stretch, in order. -/
theorem flatMap_stretches (library : IdiomLibrary) (body : List Instruction) :
    (library.stretches body).flatMap (·.instructions) = body := by
  fun_induction stretches library body with
  | case1 => rfl
  | case2 insn rest found _ ih => simp [ih]
  | case3 insn rest _ ih => simp [ih]

def statements (library : IdiomLibrary) (body : List Instruction) : List String :=
  (library.stretches body).filterMap (·.statement)

end IdiomLibrary

/-! ## Endings

How the statements of a block end: what is written for its last instruction, and which blocks are
still to be written behind it. -/

/-- What is still to be written: a block and all that follows it, or a line. -/
inductive Pending where
  | block (id : BlockId) (depth : Nat)
  | line (line : Line)
deriving DecidableEq, Repr

inductive Ending where
  /-- No transfer ends the block, so control goes on. -/
  | straight (next : Option BlockId)
  | ret
  /-- A branch to two places, the place it is taken to first. -/
  | alternative (condition : String) (taken next : BlockId)
  /-- A branch of which one place is known, or both are the same. -/
  | oneArm (condition : String) (only : BlockId)
  | noArm (condition : String)
  /-- A jump that does not lead to a higher address. -/
  | endless (target : BlockId)
  | forward (target : BlockId)
  /-- A jump to no known block, as the statement of the jump itself. -/
  | unresolved (statement : Option String)
deriving DecidableEq, Repr

namespace Block

/-- The instruction that ends the statements of a block, if it has one. -/
def control? (b : Block) : Option Instruction :=
  b.terminator?.filter Instruction.isControlFlow

/-- The instructions before the one that ends the statements. -/
def body (b : Block) : List Instruction :=
  if b.control?.isSome then b.instructions.dropLast else b.instructions

end Block

namespace Ending

def ofBranch (condition : String) : (successors : List BlockId) → Ending
  | [taken, next] => alternative condition taken next
  | [only] => oneArm condition only
  | _ => noArm condition

def ofJump (g : FlowGraph) (start : Address) (jump : Instruction) : Ending :=
  match (jump.target?.bind g.blockAt?).bind g.block? with
  | some target => if target.start ≤ start then endless target.id else forward target.id
  | none => unresolved jump.statement?

def ofBlock (g : FlowGraph) (b : Block) : Ending :=
  match b.control? with
  | none => straight b.successors.head?
  | some last =>
    if last.isReturn then ret
    else if last.isBranch then ofBranch last.condition b.successors
    else ofJump g b.start last

/-- What is written at once. -/
def texts (returnsValue : Bool) : Ending → List String
  | straight _ | forward _ => []
  | ret => [if returnsValue then "return a2;" else "return;"]
  | alternative condition _ _ => [s!"if ({condition}) \x7b"]
  | oneArm condition _ => [s!"// if ({condition})"]
  | noArm condition => [s!"if ({condition}) return;"]
  | endless _ => ["while (true) \x7b"]
  | unresolved statement => statement.toList

/-- What is written later; the lines among it close the constructs that are opened at once. -/
def pending (depth : Nat) : Ending → List Pending
  | straight next => next.toList.map fun id => .block id depth
  | oneArm _ id | forward id => [.block id depth]
  | alternative _ taken next =>
    [.block taken (depth + 1), .line ⟨depth, "\x7d else \x7b"⟩, .block next (depth + 1),
      .line ⟨depth, "\x7d"⟩]
  | endless target => [.block target (depth + 1), .line ⟨depth, "\x7d"⟩]
  | ret | noArm _ | unresolved _ => []

theorem length_pending_le (e : Ending) (depth : Nat) : (e.pending depth).length ≤ 4 := by
  cases e with
  | straight next => cases next <;> simp [pending]
  | ret | alternative | oneArm | noArm | endless | forward | unresolved => simp [pending]

end Ending

end FirmwareLift
