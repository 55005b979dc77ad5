import FirmwareLift.Instruction

/-!
# Statements

The C-like statement that stands for one instruction. An operand that is missing reads `?`, and an
instruction of unknown meaning becomes a comment.
-/

namespace FirmwareLift

open Text.Numeral (bareHex8)

namespace Instruction

variable (insn : Instruction)

def operandAt (index : Nat) : Operand :=
  insn.operands[index]?.getD "?"

/-- The condition under which a branch is taken. -/
def condition : String :=
  let left := insn.operandAt 0
  let right := insn.operandAt 1
  match insn.mnemonic with
  | "bne" => s!"{left} != {right}"
  | "blt" => s!"{left} < {right}"
  | "bge" => s!"{left} >= {right}"
  | "bltu" => s!"(unsigned){left} < (unsigned){right}"
  | "bgeu" => s!"(unsigned){left} >= (unsigned){right}"
  | "beqz" => s!"{left} == 0"
  | "bnez" => s!"{left} != 0"
  | _ => s!"{left} == {right}"

/-- The sum of a base and an offset; an offset of zero is left out. -/
def effectiveAddress (base offset : Operand) : String :=
  if offset.value? = some 0 then base else s!"{base} + {offset}"

/-- The operator of an instruction that computes its first operand from the other two. -/
def binaryOperator? : String → Option String
  | "add" | "add.s" => some "+"
  | "sub" | "sub.s" => some "-"
  | "mull" | "mul.s" => some "*"
  | "div.s" => some "/"
  | "and" => some "&"
  | "or" => some "|"
  | "xor" => some "^"
  | "sll" | "slli" => some "<<"
  | "srl" | "srli" => some ">>"
  | _ => none

/-- A sum with a constant; a negative constant is subtracted. -/
def additionText (result left constant : Operand) : String :=
  match constant.toList with
  | '-' :: magnitude => s!"{result} = {left} - {String.ofList magnitude};"
  | _ => s!"{result} = {left} + {constant};"

/-- A call of the function it names, else of the address it goes to, else through its operand. -/
def callText : String :=
  match insn.displayName?, insn.target? with
  | some name, _ => s!"{name}();"
  | none, some target => s!"func_{bareHex8 target}();"
  | none, none => s!"(*{insn.operandAt 0})();"

def branchText : String :=
  let target := insn.operands.getLast?.getD "?"
  s!"if ({insn.condition}) goto {target};"

def unknownText : String :=
  if insn.operands.isEmpty then s!"// {insn.mnemonic}"
  else s!"// {insn.mnemonic} {insn.operandText}"

/-- The statement of an instruction; `nop` and `entry` have none. -/
def statement? : Option String :=
  let first := insn.operandAt 0
  let second := insn.operandAt 1
  let third := insn.operandAt 2
  match binaryOperator? insn.mnemonic with
  | some operator => some s!"{first} = {second} {operator} {third};"
  | none =>
    match insn.mnemonic with
    | "nop" | "entry" => none
    | "addi" => some (additionText first second third)
    | "neg" => some s!"{first} = -{second};"
    | "mov" | "movi" | "l32r" => some s!"{first} = {second};"
    | "l8ui" | "l32i" => some s!"{first} = *({effectiveAddress second third});"
    | "s8i" | "s32i" => some s!"*({effectiveAddress second third}) = {first};"
    | "call0" | "call4" | "call8" | "call12" => some insn.callText
    | "callx0" | "callx8" => some s!"(*{first})();"
    | "ret" | "retw" | "rfe" => some "return;"
    | "j" => some s!"goto {first};"
    | "jx" => some s!"goto *{first};"
    | "beq" | "bne" | "blt" | "bge" | "bltu" | "bgeu" | "beqz" | "bnez" => some insn.branchText
    | "memw" => some "memory_barrier();"
    | "waiti" => some "wait_for_interrupt();"
    | _ => some insn.unknownText

end Instruction

end FirmwareLift
