import FirmwareLift.Instruction

/-!
# Instruction encoding

What a 32-bit word stands for, independently of where it stands. The lowest four bits select the
format of the word, a second field its operation:

```text
 31        24 23  20 19  16 15  12 11   8 7    4 3    0
+------------+------+------+------+------+------+------+
|            |  op2 |  op1 |   r  |   s  |   t  |  op0 |
+------------+------+------+------+------+------+------+
                imm8 = bits 16..24     offset24 = bits 8..32
```

Offsets of literals and targets count words from the next instruction.
-/

namespace FirmwareLift

/-- The bits of a word from `low` on, `width` of them, as an unsigned number. -/
def Word.field (word : Word) (low width : Nat) : Nat :=
  (word.toNat >>> low) % (1 <<< width)

/-- The number that the lowest `width` bits of `value` hold in two's complement. -/
def signExtend (width value : Nat) : Int :=
  if value < 1 <<< (width - 1) then value else value - (1 <<< width : Nat)

namespace Encoding

/-- An operand before it is resolved against an address, an image and a symbol table. -/
inductive OperandForm where
  | register (index : Nat)
  | unsigned (value : Nat)
  | signed (value : Int)
  | literal (offset : Int)
  | target (offset : Int)
deriving DecidableEq, Repr

open OperandForm

structure Form where
  mnemonic : String
  operands : List OperandForm
deriving DecidableEq, Repr

def arithmetic? (op1 r s t : Nat) : Option Form :=
  let ternary (mnemonic : String) : Form := ⟨mnemonic, [register r, register s, register t]⟩
  match op1 with
  | 0x0 => some (ternary "add")
  | 0x1 => some (ternary "sub")
  | 0x2 => some (ternary "and")
  | 0x3 => some (ternary "or")
  | 0x4 => some (ternary "xor")
  | 0x5 => some (ternary "mull")
  | 0x6 => some (ternary "sll")
  | 0x7 => some (ternary "srl")
  | 0x8 => some ⟨"neg", [register r, register t]⟩
  | 0x9 => some ⟨"mov", [register r, register s]⟩
  | _ => none

/-- Memory accesses, shifts by a constant and constants. -/
def immediate? (r s t imm8 : Nat) : Option Form :=
  match r with
  | 0x0 => some ⟨"l8ui", [register t, register s, unsigned imm8]⟩
  | 0x2 => some ⟨"l32i", [register t, register s, unsigned (imm8 * 4)]⟩
  | 0x4 => some ⟨"s8i", [register t, register s, unsigned imm8]⟩
  | 0x6 => some ⟨"s32i", [register t, register s, unsigned (imm8 * 4)]⟩
  | 0x8 => some ⟨"slli", [register t, register s, unsigned (imm8 % 32)]⟩
  | 0x9 => some ⟨"srli", [register t, register s, unsigned (imm8 % 32)]⟩
  | 0xa => some ⟨"movi", [register t, signed (signExtend 12 (s * 256 + imm8))]⟩
  | 0xc => some ⟨"addi", [register t, register s, signed (signExtend 8 imm8)]⟩
  | _ => none

def call? (t : Nat) (offset : Int) : Option Form :=
  match t with
  | 0x0 => some ⟨"call0", [target offset]⟩
  | 0x1 => some ⟨"call4", [target offset]⟩
  | 0x2 => some ⟨"call8", [target offset]⟩
  | 0x3 => some ⟨"call12", [target offset]⟩
  | _ => none

def jumpOrEntry? (s t frame : Nat) (offset : Int) : Option Form :=
  match t with
  | 0x0 => some ⟨"j", [target offset]⟩
  | 0x3 => some ⟨"entry", [register s, unsigned (frame * 8)]⟩
  | _ => none

def branch? (r s t : Nat) (offset : Int) : Option Form :=
  let compare (mnemonic : String) : Form := ⟨mnemonic, [register s, register t, target offset]⟩
  match r with
  | 0x0 => some (compare "beq")
  | 0x1 => some (compare "bne")
  | 0x2 => some (compare "blt")
  | 0x3 => some (compare "bge")
  | 0x4 => some (compare "bltu")
  | 0x5 => some (compare "bgeu")
  | 0x6 => some ⟨"beqz", [register s, target offset]⟩
  | 0x7 => some ⟨"bnez", [register s, target offset]⟩
  | _ => none

def floatArithmetic? (op1 r s t : Nat) : Option Form :=
  let ternary (mnemonic : String) : Form := ⟨mnemonic, [register r, register s, register t]⟩
  match op1 with
  | 0x0 => some (ternary "add.s")
  | 0x1 => some (ternary "sub.s")
  | 0x2 => some (ternary "mul.s")
  | 0x3 => some (ternary "div.s")
  | _ => none

/-- Returns, indirect transfers and the instructions that wait. -/
def control? (s t : Nat) : Option Form :=
  match t with
  | 0x0 => some ⟨"ret", []⟩
  | 0x1 => some ⟨"retw", []⟩
  | 0x2 => some ⟨"rfe", []⟩
  | 0x3 => some ⟨"jx", [register s]⟩
  | 0x4 => some ⟨"callx0", [register s]⟩
  | 0x5 => some ⟨"callx8", [register s]⟩
  | 0x6 => some ⟨"memw", []⟩
  | 0x7 => some ⟨"waiti", [unsigned s]⟩
  | _ => none

/-- The form of a word; the zero word and unassigned encodings have none. -/
def form? (word : Word) : Option Form :=
  let t := word.field 4 4
  let s := word.field 8 4
  let r := word.field 12 4
  let op1 := word.field 16 4
  let imm8 := word.field 16 8
  let far := signExtend 24 (word.field 8 24)
  if word = 0 then none
  else
    match word.field 0 4 with
    | 0x0 => arithmetic? op1 r s t
    | 0x1 => some ⟨"l32r", [register t, literal (signExtend 16 (word.field 8 16))]⟩
    | 0x2 => immediate? r s t imm8
    | 0x5 => call? t far
    | 0x6 => jumpOrEntry? s t (word.field 12 12) far
    | 0x7 => branch? r s t (signExtend 8 imm8)
    | 0x8 => floatArithmetic? op1 r s t
    | 0xd => control? s t
    | _ => none

end Encoding

end FirmwareLift
