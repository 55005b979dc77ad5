import FirmwareLift.Descriptor.Basic
import FirmwareLift.Image

/-!
# Discovery

Where the functions of an image start and stop. A function may start at a prologue, at the target of
a call, behind a return and padding, at the entry, or at a known address.
-/

namespace FirmwareLift

structure Bounds where
  start : Address
  /-- The first address behind the function. -/
  stop : Address
  name : String
deriving DecidableEq, Repr

namespace Image

variable (image : Image) (symbols : SymbolTable)

/-- The target of a jump at an address that leads elsewhere. -/
def jumpFrom? (address : Address) : Option Address :=
  let insn := image.decode symbols address
  if insn.mnemonic = "j" then insn.target?.filter (· ≠ address) else none

/-- Follows jumps from an address, at most `hops` of them. -/
def followJumps (hops : Nat) (address : Address) : Address :=
  match hops with
  | 0 => address
  | hops + 1 =>
    match image.jumpFrom? symbols address with
    | some target => followJumps hops target
    | none => address

/-- The reset handler that an entry leads to, through at most four jumps. -/
def followEntry (entry : Address) : Address :=
  image.followJumps symbols 4 entry

/-- The instructions at all whole words of the image. -/
def allInstructions : List Instruction :=
  image.words.map fun (address, _) => image.decode symbols address

/-- Where an instruction makes a function start: at itself, or at the target of a call. -/
def startFrom? (insn : Instruction) : Option Address :=
  if insn.mnemonic = "entry" then some insn.address
  else if insn.isCall then insn.target?
  else none

def scanStarts : OrderedSet Address :=
  .ofList ((image.allInstructions symbols).filterMap startFrom?)

/--
The addresses that follow a return and padding. The flags tell whether the last instruction that is
no padding was a return, and whether padding has followed it.
-/
def paddedStarts (behindReturn padded : Bool) : List Instruction → List Address
  | [] => []
  | insn :: rest =>
    if insn.isNop then paddedStarts behindReturn (padded || behindReturn) rest
    else
      (if behindReturn && padded then [insn.address] else []) ++
        paddedStarts insn.isReturn false rest

def paddingStarts : List Address :=
  paddedStarts false false (image.allInstructions symbols)

/-- Whether a function may start at an address: a word of the image, whole or not. -/
def hasStart (address : Address) : Bool :=
  image.base ≤ address && address < image.limit && address % Instruction.width = 0

end Image

/-- Sums that pass the end of the address space stop at its last address. -/
def saturatingAdd (a b : UInt32) : UInt32 :=
  UInt32.ofNat (min (a.toNat + b.toNat) (UInt32.size - 1))

/-- Every start with its stop: the next start, or for the last one what `lastStop` says. -/
def ranges (lastStop : Address → Address) : List Address → List (Address × Address)
  | [] => []
  | [start] => [(start, lastStop start)]
  | start :: next :: rest => (start, next) :: ranges lastStop (next :: rest)

namespace Descriptor

variable (d : Descriptor)

/-- The addresses at which functions start, the limit on their number aside. -/
def functionStarts (image : Image) (entry : Address) : OrderedSet Address :=
  ((((image.scanStarts d.knownFunctions).insertAll (image.paddingStarts d.knownFunctions)).insert
    entry).insertAll d.knownFunctions.values).filter image.hasStart

def functionName (start : Address) : String :=
  (d.knownFunctions.nameAt? start).getD s!"func_{Text.Numeral.bareHex8 start}"

/-- The first functions of the image, as many as the options admit. -/
def discover (image : Image) (entry : Address) : List Bounds :=
  let lastStop start := min (saturatingAdd start d.analysis.lastFunctionWindow) image.limit
  ((ranges lastStop (d.functionStarts image entry).toList).take d.analysis.maxFunctions.toNat).map
    fun (start, stop) => { start, stop, name := d.functionName start }

end Descriptor

end FirmwareLift
