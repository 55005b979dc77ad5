import FirmwareLift.Idiom.Shape
import FirmwareLift.Instruction

/-!
# Idioms

Statements that stand for sequences of instructions, given by their mnemonics and a template.
-/

namespace FirmwareLift

/-! ## Templates

The text of a statement with references to the operands of the instructions it replaces. A reference
is written between braces as the index of an instruction, a dot, and the index of an operand. -/

inductive Template.Piece where
  | text (chars : List Char)
  | operand (insn index : Nat)
deriving DecidableEq, Repr

abbrev Template := List Template.Piece

namespace Template

/-- What stands before the first `c`, and what stands behind it. -/
def splitFirst? (c : Char) : List Char → Option (List Char × List Char)
  | [] => none
  | d :: rest =>
    if d = c then some ([], rest)
    else (splitFirst? c rest).map fun (front, back) => (d :: front, back)

theorem splitFirst?_length {c : Char} {text front back : List Char}
    (h : splitFirst? c text = some (front, back)) : back.length < text.length := by
  induction text generalizing front with
  | nil => simp [splitFirst?] at h
  | cons d rest ih =>
    simp only [splitFirst?] at h
    split at h
    · simp_all
    · obtain ⟨⟨f, b⟩, hr, h⟩ := Option.map_eq_some_iff.1 h
      simp only [Prod.mk.injEq] at h
      have := ih (h.2 ▸ hr)
      simp only [List.length_cons]
      omega

/-- A decimal index below 2^64. -/
def index? (digits : List Char) : Option Nat :=
  Text.Numeral.below? UInt64.size 10 digits

def reference? (text : List Char) : Option Piece := do
  let (insn, index) ← splitFirst? '.' text
  return .operand (← index? insn) (← index? index)

/-- Fails on a brace that is not closed and on braces around anything but a reference. -/
def parse? (text : List Char) : Option Template :=
  match hopen : splitFirst? '\x7b' text with
  | none => some [.text text]
  | some (front, rest) =>
    match hclose : splitFirst? '\x7d' rest with
    | none => none
    | some (inner, back) =>
      have := splitFirst?_length hopen
      have := splitFirst?_length hclose
      match reference? inner, parse? back with
      | some piece, some later => some (.text front :: piece :: later)
      | _, _ => none
termination_by text.length
decreasing_by omega

def Piece.resolve? (window : List Instruction) : Piece → Option (List Char)
  | .text chars => some chars
  | .operand insn index => do
    let insn ← window[insn]?
    let operand ← insn.operands[index]?
    return operand.toList

/-- The text of a template over a window; fails if an operand that it refers to is missing. -/
def fill? (template : Template) (window : List Instruction) : Option String := do
  let parts ← template.mapM (Piece.resolve? window)
  return String.ofList parts.flatten

end Template

/-! ## Idioms

Statements for sequences of instructions with given mnemonics. Idioms are tried in the order of
their registration, and before the built-in shapes. -/

structure Idiom where
  mnemonics : List String
  replacement : String
deriving DecidableEq, Repr

namespace Idiom

def length (idiom : Idiom) : Nat := idiom.mnemonics.length

/-- Whether a window starts with the mnemonics of the idiom, of which there is at least one. -/
def fits (idiom : Idiom) (window : List Instruction) : Bool :=
  !idiom.mnemonics.isEmpty &&
    (window.take idiom.mnemonics.length).map (·.mnemonic) = idiom.mnemonics

/-- The statement of an idiom that fits and whose references can all be resolved. -/
def match? (window : List Instruction) (idiom : Idiom) : Option Match := do
  guard (idiom.fits window)
  let template ← Template.parse? idiom.replacement.toList
  let statement ← template.fill? window
  return ⟨statement, idiom.length⟩

end Idiom

/-- Idioms in the order of their registration. -/
abbrev IdiomLibrary := List Idiom

namespace IdiomLibrary

/-- An increment of a word in memory. -/
def common : IdiomLibrary :=
  [⟨["l32i", "addi", "s32i"], "*(\x7b0.1\x7d + \x7b0.2\x7d) += \x7b1.2\x7d;"⟩]

def register (library : IdiomLibrary) (idiom : Idiom) : IdiomLibrary :=
  library ++ [idiom]

/-- The statement for the instructions at the start of a window. -/
def match? (library : IdiomLibrary) (window : List Instruction) : Option Match :=
  (library.findSome? (Idiom.match? window)).or (Shape.match? window)

end IdiomLibrary

end FirmwareLift
