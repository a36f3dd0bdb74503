import ManagedVm.LittleEndian

/-!
# Addresses

A byte address is a word of 64 bits. The highest bit tells the two arenas apart, the stack from the
heap, and the other bits are the offset in the arena. The word zero is null; as offset zero of the
heap it is never handed out.
-/

namespace ManagedVm

/-- The two byte arenas. -/
inductive Space
  | heap
  | stack
  deriving DecidableEq, Inhabited

/-- An address in one of the arenas. -/
structure Address where
  raw : UInt64
  deriving DecidableEq, Inhabited, Repr

namespace Address

/-- Bytes of a slot that holds an address. -/
def slotSize : Nat := 8

/-- The word of the highest bit alone; the stack starts there. -/
def stackStart : UInt64 := 0x8000000000000000

/-- The address that refers to nothing. -/
def null : Address := ⟨0⟩

/-- The heap address at an offset. -/
def heap (offset : Nat) : Address := ⟨offset.toUInt64⟩

/-- The stack address at an offset. -/
def stack (offset : Nat) : Address := ⟨offset.toUInt64 % stackStart + stackStart⟩

/-- The address refers to nothing. -/
def isNull (a : Address) : Bool := a.raw == 0

/-- The arena the address points into. -/
def space (a : Address) : Space := if a.raw < stackStart then .heap else .stack

/-- The position in the arena. -/
def offset (a : Address) : Nat := (a.raw % stackStart).toNat

/-- The address a number of bytes further on. -/
def add (a : Address) (bytes : Nat) : Address := ⟨a.raw + bytes.toUInt64⟩

/-- The address a number of bytes further on, unless that leaves the arena. -/
def add? (a : Address) (bytes : Nat) : Option Address :=
  if a.offset + bytes < stackStart.toNat then some (a.add bytes) else none

/-- The bytes of a slot that holds the address. -/
def toBytes (a : Address) : List UInt8 := LittleEndian.encode slotSize a.raw.toNat

/-- The address a run of bytes starts with, unless the run is too short. -/
def ofBytes? (bytes : List UInt8) : Option Address :=
  if bytes.length < slotSize then
    none
  else
    some ⟨(LittleEndian.decode (bytes.take slotSize)).toUInt64⟩

/-- The text of the address. -/
def text (a : Address) : String :=
  if a.isNull then
    "null"
  else
    let digits := String.ofList (Nat.toDigits 16 a.offset)
    match a.space with
    | .heap => s!"heap:0x{digits}"
    | .stack => s!"stack:0x{digits}"

end Address

end ManagedVm
