import ManagedVm.Machine.Members
import ManagedVm.Machine.Memory

/-!
# Making values

Primitives and structs are made in the scratch of the innermost frame, strings, arrays and class
instances on the heap. A string or an array starts with its length, in four bytes.
-/

namespace ManagedVm.Exec

variable [Build]

/-- A value of a primitive type, converted to the type's kind. -/
def makePrimitive (type : TypeId) (s : Scalar) : Exec Value := do
  let category ← query fun m => .ok (m.descriptor type).category
  match category with
  | .primitive kind =>
    let bytes := (s.convert kind).encode
    let address ← carve bytes.length
    write address bytes
    return .primitive type address
  | _ => throw (.unexpectedValue "a primitive type" "composite type")

/-- A value of the built-in type of the scalar's kind. -/
def makeScalar (s : Scalar) : Exec Value := do
  makePrimitive (← query fun m => .ok (m.types.builtins.primitive s.kind)) s

/-- A string. -/
def makeString (text : String) : Exec Value := do
  let bytes := Utf8.encode text
  if UInt32.size ≤ bytes.length then
    throw (.sizeMismatch (UInt32.size - 1) bytes.length)
  let type ← query fun m => .ok m.types.builtins.string
  let target ← allocateObject (Machine.lengthSize + bytes.length) type .string
  writeHeap target (LittleEndian.encode Machine.lengthSize bytes.length)
  writeHeap (target.add Machine.lengthSize) bytes
  return .string type target

/-- The value of a constant. -/
def makeConstant (index : Int32) : Exec Value := do
  let c ← query (·.constantAt index)
  let image ← query fun m => .ok m.image
  match c.kind with
  | .primitive kind =>
    match image.constantBytes? c with
    | none => throw (.unknownConstant index)
    | some bytes =>
      let type ← query fun m => .ok (m.types.builtins.primitive kind)
      let address ← carve bytes.length
      write address bytes
      return .primitive type address
  | .string =>
    match image.strings[c.offset]? with
    | none => throw (.unknownConstant index)
    | some text => makeString text

/-- An array of zeros; the type is that of the array. -/
def makeArray (type : TypeId) (length : Nat) : Exec Value := do
  let d ← query fun m => .ok (m.descriptor type)
  if d.category ≠ .array then
    throw (.unexpectedValue "an array type" "non-array type")
  let element ← query fun _ => Machine.underlying d
  let size ← query fun m =>
    Size.fit .panic (Machine.lengthSize + (m.descriptor element).size * length)
  let target ← allocateObject size type (.array element length)
  writeHeap target (LittleEndian.encode Machine.lengthSize length)
  return .array type target

/-- The default value of a type: all bytes zero, an empty string or array, a null pointer, a new
instance of a class. -/
def makeDefault (type : TypeId) : Exec Value := do
  let d ← query fun m => .ok (m.descriptor type)
  match d.category with
  | .primitive _ => return .primitive type (← carve d.size)
  | .struct => return .struct type (← carve d.size)
  | .object => return .reference type (← allocateObject d.instanceSize type .object)
  | .string => makeString ""
  | .array => makeArray type 0
  | .pointer => return .pointer (← query fun _ => Machine.underlying d) .null
  | .void => throw (.notConstructible d.name)

end ManagedVm.Exec
