import ManagedVm.Address

/-!
# Values

A value is a handle: where its bytes are and how to read them. Primitives and structs lie inline at
an address; strings, class instances and arrays are the address of a heap object, and a pointer is
any address at all.
-/

namespace ManagedVm

/-- The number of a type in the type table. For a declared type it is the place of its declaration.
-/
structure TypeId where
  index : Nat
  deriving DecidableEq, Inhabited

/-- The text of the type's number. -/
def TypeId.text (t : TypeId) : String := s!"type#{t.index}"

/-- A handle on the bytes of a value. -/
inductive Value
  /-- A scalar stored at the address. -/
  | primitive (type : TypeId) (address : Address)
  /-- Text on the heap. -/
  | string (type : TypeId) (target : Address)
  /-- A struct laid out at the address. -/
  | struct (type : TypeId) (address : Address)
  /-- A class instance on the heap. -/
  | reference (type : TypeId) (target : Address)
  /-- A view of a `pointee` at the target. It owns nothing, but keeps the heap object alive that it
  points into. -/
  | pointer (pointee : TypeId) (target : Address)
  /-- An array on the heap; the type is that of the array. -/
  | array (type : TypeId) (target : Address)
  deriving DecidableEq, Inhabited

namespace Value

/-- The type of the value, for a pointer the type pointed to. -/
def type : Value → TypeId
  | primitive t _ | string t _ | struct t _ | reference t _ | pointer t _ | array t _ => t

/-- Where the bytes of an inline value are, or the address that a slot of the value holds. -/
def location : Value → Address
  | primitive _ a | string _ a | struct _ a | reference _ a | pointer _ a | array _ a => a

/-- The heap object the value owns, if it is of a kind that owns one. -/
def owned? : Value → Option Address
  | string _ target | reference _ target | array _ target => some target
  | primitive .. | struct .. | pointer .. => none

/-- A slot of the value holds an address rather than the value's bytes. -/
def isAddress : Value → Bool
  | primitive .. | struct .. => false
  | string .. | reference .. | pointer .. | array .. => true

/-- The name of the value's shape. -/
def shape : Value → String
  | primitive .. => "primitive"
  | string .. => "string"
  | struct .. => "struct"
  | reference .. => "reference"
  | pointer .. => "pointer"
  | array .. => "array"

/-- The text of the handle. -/
def text (v : Value) : String := s!"{v.shape}({v.type.text}) @ {v.location.text}"

end Value

end ManagedVm
