import FirmwareLift.Descriptor.Basic
import FirmwareLift.Encoding
import FirmwareLift.Instruction

/-!
# Images

A flat firmware image, mapped at a base address: the words that can be fetched from it, the
instructions that they stand for, and its strings and constants.
-/

namespace FirmwareLift

/-! ## Words -/

structure Image where
  base : Address
  bytes : Array UInt8
deriving DecidableEq

inductive FetchError where
  | outOfRange (address : Address)
  | misaligned (address : Address)
  | truncated (address : Address)
deriving DecidableEq, Repr

def FetchError.message : FetchError → String
  | outOfRange address => s!"Address {Text.Numeral.hex8 address} is outside the image bounds"
  | misaligned address => s!"Address {Text.Numeral.hex8 address} is not word aligned"
  | truncated address => s!"Truncated instruction word at {Text.Numeral.hex8 address}"

/-- The word whose lowest byte comes first. -/
def Word.ofBytes (b0 b1 b2 b3 : UInt8) : Word :=
  b0.toUInt32 ||| b1.toUInt32 <<< 8 ||| b2.toUInt32 <<< 16 ||| b3.toUInt32 <<< 24

namespace Image

/-- The word at an offset from the base, if four bytes are left there. -/
def wordAtOffset? (image : Image) (offset : Nat) : Option Word :=
  match image.bytes[offset]?, image.bytes[offset + 1]?, image.bytes[offset + 2]?,
    image.bytes[offset + 3]? with
  | some b0, some b1, some b2, some b3 => some (Word.ofBytes b0 b1 b2 b3)
  | _, _, _, _ => none

def fetch (image : Image) (address : Address) : Except FetchError Word :=
  if address % Instruction.width ≠ 0 then .error (.misaligned address)
  else if address < image.base ∨ image.bytes.size ≤ (address - image.base).toNat then
    .error (.outOfRange address)
  else
    match image.wordAtOffset? (address - image.base).toNat with
    | none => .error (.truncated address)
    | some word => .ok word

/-- How a decoder of the image names itself. -/
def decoderName (image : Image) : String :=
  s!"FirmwareDecoder@{Text.Numeral.hex8 image.base}"

/--
The first address behind the image, or the last of the address space if the image passes it. The
size of the image counts modulo 2^32.
-/
def limit (image : Image) : Address :=
  UInt32.ofNat (min (image.base.toNat + image.bytes.size % UInt32.size) (UInt32.size - 1))

/-- The whole words of the image with their addresses, up to the end of the address space. -/
def words (image : Image) : List (Address × Word) :=
  (List.range (image.bytes.size / 4)).filterMap fun index =>
    let address := image.base.toNat + 4 * index
    if address < UInt32.size then
      (image.wordAtOffset? (4 * index)).map fun word => (UInt32.ofNat address, word)
    else none

end Image

/-! ## Decoding

Instructions from the words of an image. Decoding is total: a word that is missing or has no meaning
gives the placeholder `nop`. -/

open Text.Numeral (hex)

/-- An address `offset` words behind the instruction that follows `address`, modulo 2^32. -/
def relativeAddress (address : Address) (offset : Int) : Address :=
  address + Instruction.width + UInt32.ofInt (4 * offset)

/--
The text of an operand. A target shows its symbol, if it has one. A literal shows the word it
refers to, and its address where no word can be fetched.
-/
def Encoding.OperandForm.text (symbols : SymbolTable) (image : Image) (address : Address) :
    OperandForm → Operand
  | register index => Operand.register index
  | unsigned value => toString value
  | signed value => toString value
  | literal offset =>
    let place := relativeAddress address offset
    hex ((image.fetch place).toOption.getD place)
  | target offset =>
    let place := relativeAddress address offset
    (symbols.shownAt? place).getD (hex place)

namespace Image

/-- Decodes a word as if it stood at `address` of the image. -/
def decodeWord (image : Image) (symbols : SymbolTable) (address : Address) (word : Word) :
    Instruction :=
  match Encoding.form? word with
  | none => .nop address word
  | some form =>
    { address, word, mnemonic := form.mnemonic,
      operands := form.operands.map (·.text symbols image address) }

def decode? (image : Image) (symbols : SymbolTable) (address : Address) :
    Except FetchError Instruction :=
  (image.fetch address).map (image.decodeWord symbols address)

def decode (image : Image) (symbols : SymbolTable) (address : Address) : Instruction :=
  match image.decode? symbols address with
  | .ok insn => insn
  | .error _ => .nop address 0

end Image

/-- Every fourth address from `start` on that lies below `stop`. -/
def wordsBetween (start stop : Address) : List Address :=
  (List.range ((stop.toNat - start.toNat + 3) / 4)).map fun index =>
    start + UInt32.ofNat (4 * index)

def Image.listing (image : Image) (symbols : SymbolTable) (start stop : Address) :
    List Instruction :=
  (wordsBetween start stop).map (image.decode symbols)

/-! ## Strings and constants -/

/-- A tab, or a character from the blank to the tilde. -/
def isPrintable (byte : UInt8) : Bool :=
  byte = 0x09 || (0x20 ≤ byte && byte < 0x7f)

/-- A run of bytes that is long enough, with its offset. -/
def reportRun (minLength start : Nat) (run : List UInt8) : List (Nat × List UInt8) :=
  if minLength ≤ run.length then [(start, run)] else []

/--
The runs of printable bytes that are long enough, with their offsets. The byte at `offset` comes
next; `current` is the run before it, in reverse, and `start` the offset of the latest run.
-/
def printableRuns (minLength start : Nat) (current : List UInt8) (offset : Nat) :
    List UInt8 → List (Nat × List UInt8)
  | [] => reportRun minLength start current.reverse
  | byte :: rest =>
    if isPrintable byte then
      printableRuns minLength (if current.isEmpty then offset else start) (byte :: current)
        (offset + 1) rest
    else
      reportRun minLength start current.reverse ++
        printableRuns minLength start [] (offset + 1) rest

/-- The text of ASCII bytes. -/
def asciiText (bytes : List UInt8) : String :=
  String.ofList (bytes.map fun byte => Char.ofNat byte.toNat)

namespace Image

variable (image : Image)

/-- The strings of at least `minLength` characters, with their addresses modulo 2^32. -/
def strings (minLength : Nat) : List (Address × String) :=
  (printableRuns minLength 0 [] 0 image.bytes.toList).map fun (offset, run) =>
    (image.base + UInt32.ofNat offset, asciiText run)

end Image

/-- The words that look like small constants or like pointers to RAM. -/
def Descriptor.constants (d : Descriptor) (image : Image) : List (Address × Word) :=
  image.words.filter fun (_, word) => word < 0x1000 || d.isRam word

end FirmwareLift
