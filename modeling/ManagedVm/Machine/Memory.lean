import ManagedVm.Machine.State
import ManagedVm.Scalar.Text
import ManagedVm.Utf8

/-!
# Values in memory

Reading and writing through addresses of either arena, and the step from bytes to values: what a
slot of a type holds, which bytes a value puts into a slot, the scalar or the text of a value, and
the addresses of elements and fields.
-/

namespace ManagedVm.Machine

/-- Bytes before the first element of an array or the first byte of a string. -/
def lengthSize : Nat := 4

variable [Build] (m : Machine)

/-- The descriptor of a type. -/
def descriptor (t : TypeId) : Descriptor := m.types.descriptor t

/-! ## Bytes -/

/-- The bytes at an address of either arena. -/
def read (address : Address) (length : Nat) : Except Error (List UInt8) :=
  if address.isNull then
    .error .nullReference
  else
    match address.space with
    | .heap => (m.heap.bytes address length).mapError .heap
    | .stack => m.stack.bytes address length

/-! ## Slots -/

/-- Bytes of a slot that holds the value. -/
def valueSize (v : Value) : Nat :=
  if v.isAddress then Address.slotSize else (m.descriptor v.type).size

/-- The bytes of a slot that holds the value. -/
def valueBytes (v : Value) : Except Error (List UInt8) :=
  if v.isAddress then .ok v.location.toBytes else m.read v.location (m.valueSize v)

/-- The address stored in a slot. -/
def storedAddress (address : Address) : Except Error Address := do
  let bytes ← m.read address Address.slotSize
  match Address.ofBytes? bytes with
  | some target => return target
  | none => throw (.sizeMismatch Address.slotSize bytes.length)

/-- The type an array or a pointer is made from. -/
def underlying (d : Descriptor) : Except Error TypeId :=
  match d.underlying with
  | some t => .ok t
  | none => .error (.type (.missingUnderlyingType d.name))

/-- The value in a slot. Primitives and structs are the slot itself; the others are the address
stored there. -/
def materialize (type : TypeId) (address : Address) : Except Error Value :=
  let d := m.descriptor type
  match d.category with
  | .primitive _ => .ok (.primitive type address)
  | .struct => .ok (.struct type address)
  | .string => (m.storedAddress address).map (.string type)
  | .object => (m.storedAddress address).map (.reference type)
  | .array => (m.storedAddress address).map (.array type)
  | .pointer => do
    let pointee ← underlying d
    return .pointer pointee (← m.storedAddress address)
  | .void => .error (.unexpectedValue "a storable type" "void")

/-- The bytes that storing a value in a slot of a type writes. -/
def slotBytes (type : TypeId) (v : Value) : Except Error (List UInt8) := do
  let d := m.descriptor type
  if d.category.holdsAddress ≠ v.isAddress then
    throw (.unexpected (if d.category.holdsAddress then "an address" else "inline bytes") v)
  let bytes ← m.valueBytes v
  if bytes.length ≠ d.size then
    throw (.sizeMismatch d.size bytes.length)
  return bytes

/-- A local or an argument of the innermost frame. -/
def slot (choose : Frame → Except Error Binding) : Except Error Binding :=
  m.stack.current >>= choose

/-- The value in a local or an argument of the innermost frame. -/
def slotValue (choose : Frame → Except Error Binding) : Except Error Value := do
  let b ← m.slot choose
  m.materialize b.type b.address

/-! ## Contents -/

/-- The scalar of a primitive value. -/
def readScalar (v : Value) : Except Error Scalar :=
  match v with
  | .primitive type address =>
    let d := m.descriptor type
    match d.category with
    | .primitive kind => do
      match Scalar.decode? kind (← m.read address d.size) with
      | some s => return s
      | none => throw (.sizeMismatch kind.size d.size)
    | _ => .error (.unexpected "primitive" v)
  | _ => .error (.unexpected "primitive" v)

/-- The number of a primitive value, as an index or a length. -/
def readIndex (v : Value) : Except Error Int := do
  let s ← m.readScalar v
  return WordKind.long.value (s.toWord .long)

/-- The number before the elements of an array or the bytes of a string. -/
def readLength (target : Address) : Except Error Nat :=
  (m.read target lengthSize).map LittleEndian.decode

/-- The live object that a value refers to. -/
def liveObject (target : Address) : Except Error Heap.Object :=
  if target.isNull then .error .nullReference else (m.heap.get target).mapError .heap

/-- The text of a string. -/
def readString (v : Value) : Except Error String :=
  match v with
  | .string _ target => do
    discard <| m.liveObject target
    let length ← m.readLength target
    return Utf8.decode (← m.read (target.add lengthSize) length)
  | _ => .error (.unexpected "string" v)

/-- The number of elements of an array. -/
def arrayLength (v : Value) : Except Error Nat :=
  match v with
  | .array _ target => do
    discard <| m.liveObject target
    m.readLength target
  | _ => .error (.unexpected "array" v)

/-- The text of a string or a primitive. -/
def textOf (v : Value) : Except Error String :=
  match v with
  | .string .. => m.readString v
  | .primitive .. => (m.readScalar v).map Scalar.text
  | _ => .error (.unexpected "string or primitive" v)

/-- A condition is a primitive, or a reference that need not be null. -/
def isTruthy (v : Value) : Except Error Bool :=
  match v with
  | .primitive .. => (m.readScalar v).map Scalar.isTruthy
  | .struct .. => .error (.unexpected "condition" v)
  | v => .ok (!v.location.isNull)

/-! ## Elements and fields -/

/-- The address and the type of an element. An index is good as long as the whole element lies in
the array's own allocation. -/
def elementAddress (array : Value) (index : Int) : Except Error (Address × TypeId) :=
  match array with
  | .array type target => do
    let o ← m.liveObject target
    let element ← underlying (m.descriptor type)
    let size := (m.descriptor element).size
    let outside : Error := .heap (.invalidRange target size)
    if index < 0 then
      throw outside
    let offset := index.toNat * size + lengthSize
    if o.size < offset + size then
      throw outside
    match target.add? offset with
    | some address => return (address, element)
    | none => throw outside
  | _ => .error (.unexpected "array" array)

/-- The address of an instance field of a class instance, of a struct, or of what a pointer points
to. -/
def fieldAddress (receiver : Value) (field : FieldLayout) : Except Error Address :=
  match receiver with
  | .reference _ target => do
    discard <| m.liveObject target
    return target.add field.offset
  | .struct _ address => .ok (address.add field.offset)
  | .pointer _ target =>
    if target.isNull then .error .nullReference else .ok (target.add field.offset)
  | _ => .error (.unexpected "object instance" receiver)

/-- The block of static fields of a type. -/
def staticsOf? (type : TypeId) : Option Address :=
  (m.statics.find? (·.1 == type)).map (·.2)

/-- The address of a static field. -/
def staticFieldAddress (owner : TypeId) (field : FieldLayout) : Except Error Address :=
  match m.staticsOf? owner with
  | some block => .ok (block.add field.offset)
  | none => .error (.staticMismatch field.name true)

end ManagedVm.Machine

namespace ManagedVm.Exec

variable [Build]

/-- Writes bytes at an address of either arena. -/
def write (address : Address) (data : List UInt8) : Exec Unit :=
  if address.isNull then
    throw .nullReference
  else
    match address.space with
    | .heap => writeHeap address data
    | .stack => writeStack address data

/-- Copies bytes. -/
def copy (source target : Address) (length : Nat) : Exec Unit := do
  write target (← query (·.read source length))

/-- Stores a value in a slot of a type. -/
def store (address : Address) (type : TypeId) (v : Value) : Exec Unit := do
  write address (← query (·.slotBytes type v))

/-- A value with storage of its own: primitives and structs are copied to scratch, the others are
the same wherever they are. -/
def duplicate (v : Value) : Exec Value := do
  match v with
  | .primitive type address => return .primitive type (← copyOf type address)
  | .struct type address => return .struct type (← copyOf type address)
  | v => return v
where
  /-- A copy in scratch of a slot of a type. -/
  copyOf (type : TypeId) (address : Address) : Exec Address := do
    let size ← query fun m => .ok (m.descriptor type).size
    let copied ← carve size
    copy address copied size
    return copied

/-- The value in a slot, with storage of its own. -/
def load (type : TypeId) (address : Address) : Exec Value := do
  duplicate (← query (·.materialize type address))

end ManagedVm.Exec
