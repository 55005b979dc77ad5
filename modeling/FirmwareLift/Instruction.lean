import FirmwareLift.Text

/-!
# Instructions

Decoded instructions and the text of their operands.
-/

namespace FirmwareLift

/-! ## Operands

An operand is text: a register (`a2`), a number, or the name of a known address. Passes that need
the number read it back from the text. -/

abbrev Address := UInt32

abbrev Word := UInt32

abbrev Operand := String

namespace Operand

def register (index : Nat) : Operand :=
  s!"a{index}"

/-- The letter `a` and one or more digits; the number is not bounded. -/
def isRegister (operand : Operand) : Bool :=
  match operand.toList with
  | 'a' :: digits => !digits.isEmpty && digits.all Char.isDigit
  | _ => false

/-- A letter or underscore, then letters, digits and underscores, all of them ASCII. -/
def isIdentifier (text : List Char) : Bool :=
  match text with
  | [] => false
  | c :: rest => (c.isAlpha || c = '_') && rest.all fun c => c.isAlphanum || c = '_'

/-- A numeral below 2^32. -/
def word? (base : Nat) (digits : List Char) : Option Word :=
  (Text.Numeral.below? UInt32.size base digits).map UInt32.ofNat

/--
The number that an operand denotes: hexadecimal behind `0x` or `0X`, otherwise decimal, where a
minus sign negates modulo 2^32. Blanks around the number are ignored; a name denotes no number.
-/
def value? (operand : Operand) : Option Word :=
  match Text.trim operand.toList with
  | '0' :: 'x' :: digits => word? 16 digits
  | '0' :: 'X' :: digits => word? 16 digits
  | '-' :: digits => (word? 10 digits).map (0 - ·)
  | digits => word? 10 digits

end Operand

/-! ## Instructions

One decoded instruction: its place, its word, a mnemonic, operand text, and at most one comment that
the detection passes attach. -/

/-- What an instruction does to control and memory, read off its mnemonic. -/
inductive Kind where
  | branch
  | jump
  | call
  | ret
  | store
  | plain
deriving DecidableEq, Repr

def Kind.ofMnemonic (mnemonic : String) : Kind :=
  if mnemonic ∈ ["beq", "bne", "blt", "bge", "bltu", "bgeu", "beqz", "bnez"] then .branch
  else if mnemonic ∈ ["j", "jx"] then .jump
  else if mnemonic ∈ ["call0", "call4", "call8", "call12", "callx0", "callx8"] then .call
  else if mnemonic ∈ ["ret", "retw", "rfe"] then .ret
  else if mnemonic ∈ ["s8i", "s32i"] then .store
  else .plain

structure Instruction where
  address : Address
  word : Word
  mnemonic : String
  operands : List Operand
  comment : Option String := none
deriving DecidableEq

namespace Instruction

/-- Every instruction takes one word. -/
def width : Address := 4

/-- The placeholder for a word that is missing or has no meaning. -/
def nop (address : Address) (word : Word) : Instruction where
  address := address
  word := word
  mnemonic := "nop"
  operands := []

variable (insn : Instruction)

def kind : Kind := Kind.ofMnemonic insn.mnemonic

def isBranch : Bool := insn.kind = .branch

def isJump : Bool := insn.kind = .jump

def isCall : Bool := insn.kind = .call

def isReturn : Bool := insn.kind = .ret

def isStore : Bool := insn.kind = .store

/-- A call comes back, so it does not end the flow of a block's statements. -/
def isControlFlow : Bool := insn.isBranch || insn.isJump || insn.isReturn

/-- Control may go elsewhere behind this instruction. -/
def isTransfer : Bool := insn.isControlFlow || insn.isCall

def isNop : Bool := insn.mnemonic = "nop"

/-- The address right behind the instruction, modulo 2^32. -/
def next : Address := insn.address + width

/-- The numeric target of a branch, jump or call, which is its last operand. -/
def target? : Option Address :=
  if insn.isBranch || insn.isJump || insn.isCall then insn.operands.getLast?.bind Operand.value?
  else none

/-- Attaches a comment; an instruction keeps the first comment it gets. -/
def annotate (comment : String) : Instruction :=
  { insn with comment := insn.comment.or (some comment) }

/-- What stands behind the last `": "` of `rest`, or `part` if there is none. -/
def afterSeparator (part : List Char) : (rest : List Char) → List Char
  | ':' :: ' ' :: rest => afterSeparator rest rest
  | _ :: rest => afterSeparator part rest
  | [] => part

/--
The name of the function that a call goes to: the name in its comment, which has the form
`family: name`, or else the operand if that is a symbol.
-/
def displayName? : Option String :=
  let fromComment := insn.comment.bind fun comment =>
    let name := Text.trim (afterSeparator comment.toList comment.toList)
    if Operand.isIdentifier name then some (String.ofList name) else none
  fromComment.or <| insn.operands.getLast?.filter fun operand =>
    Operand.isIdentifier operand.toList && !Operand.isRegister operand

/-- Stores and transfers other than returns only read their operands. -/
def writesFirstOperand : Bool :=
  !(insn.isStore || insn.isBranch || insn.isJump || insn.isCall)

/-- The register that the instruction writes. -/
def defined? : Option Operand :=
  if insn.writesFirstOperand then insn.operands.head?.filter Operand.isRegister else none

/-- The registers that the instruction reads, as often as they occur. -/
def used : List Operand :=
  (insn.operands.drop (if insn.writesFirstOperand then 1 else 0)).filter Operand.isRegister

/-- How far a call rotates the register file. -/
def callWindow? : Option Nat :=
  match insn.mnemonic with
  | "call0" | "callx0" => some 0
  | "call4" => some 4
  | "call8" | "callx8" => some 8
  | "call12" => some 12
  | _ => none

/-- The caller's register for an argument: arguments start at `a2` of the callee's window. -/
def argumentRegister? (index : Nat) : Option Operand :=
  insn.callWindow?.map fun window => Operand.register (2 + window + index)

def operandText : String :=
  ", ".intercalate insn.operands

def text : String :=
  if insn.operands.isEmpty then insn.mnemonic else insn.mnemonic ++ "\t" ++ insn.operandText

end Instruction

end FirmwareLift
