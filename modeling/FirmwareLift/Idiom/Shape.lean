import FirmwareLift.Instruction
import FirmwareLift.Text

/-!
# Shapes

Short sequences that load constants and use them in a call or a store, recognised by the comment of
their last instruction.
-/

namespace FirmwareLift

open Text.Numeral (hex8)

/-- A statement and the number of instructions that it replaces. -/
structure Match where
  statement : String
  consumed : Nat
deriving DecidableEq, Repr

namespace Instruction

variable (insn : Instruction)

/-- A register and the constant that it is loaded with. -/
def loaded? : Option (Operand × Operand) :=
  if insn.mnemonic = "movi" ∨ insn.mnemonic = "l32r" then
    match insn.operands with
    | register :: constant :: _ => some (register, constant)
    | _ => none
  else none

/-- Whether the comment holds the given lowercase text, whatever the case of its letters. -/
def mentions (part : String) : Bool :=
  insn.comment.any fun comment => Text.containsIgnoringCase part.toList comment.toList

end Instruction

namespace Shape

/-- The number of a register; what is no register comes behind all of them. -/
def registerOrder (operand : Operand) : Nat :=
  match operand.toList with
  | 'a' :: digits => ((Operand.word? 10 digits).map UInt32.toNat).getD (UInt32.size - 1)
  | _ => UInt32.size - 1

/-- Two constants and a GPIO call: the call with the constants in the order of their registers. -/
def gpioCall? : List Instruction → Option Match
  | first :: second :: call :: _ => do
    let (firstRegister, firstConstant) ← first.loaded?
    let (secondRegister, secondConstant) ← second.loaded?
    if call.isCall && call.mentions "gpio" then
      let name := call.displayName?.getD "gpio_set_level"
      let statement :=
        if registerOrder firstRegister ≤ registerOrder secondRegister then
          s!"{name}({firstConstant}, {secondConstant});"
        else s!"{name}({secondConstant}, {firstConstant});"
      return ⟨statement, 3⟩
    else none
  | _ => none

/-- The address of a store whose base holds a constant. -/
def registerAddress (constant offset : Operand) : String :=
  match constant.value?, offset.value? with
  | some base, some distance => hex8 (base + distance)
  | _, _ => s!"{constant} + {offset}"

/-- A constant and a store to a peripheral register, for which it is the base or the value. -/
def registerWrite? : List Instruction → Option Match
  | load :: store :: _ => do
    let (register, constant) ← load.loaded?
    match store.operands with
    | value :: base :: offset :: _ =>
      if store.isStore && store.mentions "register" then
        let statement :=
          if base = register then s!"REG_WRITE({registerAddress constant offset}, {value});"
          else if value = register then s!"REG_WRITE({base} + {offset}, {constant});"
          else s!"REG_WRITE({base} + {offset}, {value});"
        return ⟨statement, 2⟩
      else none
    | _ => none
  | _ => none

/-- A constant and a call that delays, prints or connects. -/
def primitiveCall? : List Instruction → Option Match
  | load :: call :: _ => do
    let (_, constant) ← load.loaded?
    if call.isCall then
      if call.mentions "delay" then
        let name := call.displayName?.getD "delay"
        return ⟨s!"{name}({constant});", 2⟩
      else if call.mentions "print" then
        let name := call.displayName?.getD "printf"
        return ⟨s!"{name}({constant});", 2⟩
      else if call.mentions "connect" then
        let name := call.displayName?.getD "wifi_connect"
        return ⟨s!"{name}();", 2⟩
      else none
    else none
  | _ => none

def match? (window : List Instruction) : Option Match :=
  (gpioCall? window).or <| (registerWrite? window).or (primitiveCall? window)

end Shape

end FirmwareLift
