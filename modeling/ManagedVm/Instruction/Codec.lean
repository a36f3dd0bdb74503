import ManagedVm.Instruction.Basic
import ManagedVm.LittleEndian

/-!
# The binary form of instructions

An instruction is five bytes: the opcode's code and the operand, least significant byte first.
Decoding works unit by unit. A unit whose first byte is no code is reported and used up whole, so
that the next unit starts at the next multiple of five; a last unit that is too short is reported
once and ends the stream.

`Decoder.next` is one such step; `items` is the list of all steps; `decode` keeps the first error.
-/

namespace ManagedVm.Instruction

/-- Bytes of one encoded instruction. -/
def unitSize : Nat := 5

/-- Why a unit could not be decoded. -/
inductive DecodeError
  /-- The byte at the offset is the code of no opcode. -/
  | unknownOpcode (offset : Nat) (byte : UInt8)
  /-- Fewer than five bytes are left at the offset. -/
  | truncated (offset : Nat)
  deriving DecidableEq, Inhabited, Repr

/-- The text of the error. -/
def DecodeError.message : DecodeError → String
  | .unknownOpcode offset byte =>
    let digits := String.ofList (Nat.toDigits 16 byte.toNat)
    let padded := if byte < 16 then "0" ++ digits else digits
    s!"unknown opcode 0x{padded} at offset {offset}"
  | .truncated offset => s!"truncated instruction at offset {offset}"

/-- The five bytes of one instruction. -/
def toUnit (i : Instruction) : List UInt8 :=
  i.op.code :: LittleEndian.encode 4 i.operand.toBitVec.toNat

/-- The bytes of a body. -/
def encode (body : List Instruction) : List UInt8 := body.flatMap toUnit

/-- The instruction of a whole unit found at `offset`. -/
def ofUnit (offset : Nat) (code : UInt8) (operand : List UInt8) :
    Except DecodeError Instruction :=
  match Opcode.ofCode? code with
  | some op => .ok ⟨op, .ofBitVec (.ofNat 32 (LittleEndian.decode operand))⟩
  | none => .error (.unknownOpcode offset code)

/-- A position in a byte stream: the offset and the bytes from there on. -/
structure Decoder where
  offset : Nat
  rest : List UInt8

namespace Decoder

/-- The start of a byte stream. -/
def ofBytes (bytes : List UInt8) : Decoder := ⟨0, bytes⟩

/-- Decodes the unit at the position and moves past it; nothing happens at the end. -/
def next (d : Decoder) : Option (Except DecodeError Instruction) × Decoder :=
  match d.rest with
  | [] => (none, d)
  | code :: a :: b :: c :: e :: rest =>
    (some (ofUnit d.offset code [a, b, c, e]), ⟨d.offset + unitSize, rest⟩)
  | short => (some (.error (.truncated d.offset)), ⟨d.offset + short.length, []⟩)

end Decoder

/-- What decoding finds from `offset` on: each unit's offset with its instruction or error. -/
def itemsFrom (offset : Nat) : List UInt8 → List (Nat × Except DecodeError Instruction)
  | [] => []
  | code :: a :: b :: c :: e :: rest =>
    (offset, ofUnit offset code [a, b, c, e]) :: itemsFrom (offset + unitSize) rest
  | _ => [(offset, .error (.truncated offset))]

/-- What decoding finds in a byte stream, unit by unit. -/
def items (bytes : List UInt8) : List (Nat × Except DecodeError Instruction) := itemsFrom 0 bytes

/-- The instructions of a byte stream, or the error of its first bad unit. -/
def decode (bytes : List UInt8) : Except DecodeError (List Instruction) :=
  (items bytes).mapM (·.2)

end ManagedVm.Instruction
