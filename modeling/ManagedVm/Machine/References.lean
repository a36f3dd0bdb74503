import ManagedVm.Machine.Memory

/-!
# References

Which heap objects are referred to, and from where. A slot of a string, class or array type refers
to the object whose address it holds; a pointer refers to the object it points into; a struct refers
to whatever its fields refer to. Roots are the frames' instances, values, locals and arguments and
the values in flight; beside them every live object refers to what its own slots hold.

The nesting of structs is bounded by the number of types, because no struct contains itself; the
functions that follow it take that number as their fuel.
-/

namespace ManagedVm.Machine

variable [Build] (m : Machine)

/-- The object a slot with an address refers to. -/
def ownedTarget (target : Address) : List Address :=
  if target.isNull ∨ target.space = .stack then [] else [target]

/-- The object a pointer refers to. -/
def pointedTarget (target : Address) : List Address :=
  match m.heap.containing? target with
  | some o => [o.address]
  | none => []

/-- The objects that a slot of a type refers to, for structs nested no deeper than the fuel. -/
def referencesAt : (fuel : Nat) → Address → TypeId → Except Error (List Address)
  | 0, _, _ => .ok []
  | fuel + 1, address, type =>
    let d := m.descriptor type
    match d.category with
    | .string | .object | .array => (m.storedAddress address).map ownedTarget
    | .pointer => (m.storedAddress address).map m.pointedTarget
    | .struct => do
      let found ← d.instanceFields.mapM fun f =>
        referencesAt fuel (address.add f.offset) f.type
      return found.flatten
    | .void | .primitive _ => .ok []

/-- The depth to which structs can be nested. -/
def nesting : Nat := m.types.descriptors.size + 1

/-- The objects that a slot of a type refers to. -/
def referencesIn (address : Address) (type : TypeId) : Except Error (List Address) :=
  m.referencesAt m.nesting address type

/-- A slot of a type can refer to an object, for structs nested no deeper than the fuel. -/
def mayRefer : (fuel : Nat) → TypeId → Bool
  | 0, _ => false
  | fuel + 1, type =>
    let d := m.descriptor type
    d.category.holdsAddress ||
      (d.category == .struct && d.instanceFields.any fun f => mayRefer fuel f.type)

/-- A slot of a type can refer to an object. -/
def holdsReferences (type : TypeId) : Bool := m.mayRefer m.nesting type

/-- The objects that a value keeps alive. -/
def ownedTargets (v : Value) : Except Error (List Address) :=
  match v with
  | .struct type address => m.referencesIn address type
  | .pointer _ target => .ok (m.pointedTarget target)
  | v =>
    match v.owned? with
    | some target => .ok (if target.isNull then [] else [target])
    | none => .ok []

/-- The objects that a row of fields from an address on refers to. -/
def referencesOfFields (address : Address) (fields : List FieldLayout) :
    Except Error (List Address) := do
  let found ← fields.mapM fun f => m.referencesIn (address.add f.offset) f.type
  return found.flatten

/-- The objects that elements in a row refer to, from an address on; `found` are those of the
elements before, last one first. -/
def referencesOfElements (element : TypeId) (size : Nat) :
    (count : Nat) → Address → (found : List (List Address)) → Except Error (List Address)
  | 0, _, found => .ok found.reverse.flatten
  | count + 1, address, found => do
    let here ← m.referencesIn address element
    referencesOfElements element size count (address.add size) (here :: found)

/-- The objects that a live object refers to. Arrays whose elements cannot refer to anything are not
scanned. -/
def referencesOf (o : Heap.Object) : Except Error (List Address) :=
  match o.kind with
  | .string => .ok []
  | .object => m.referencesOfFields o.address (m.descriptor o.type).instanceFields
  | .statics => m.referencesOfFields o.address (m.descriptor o.type).staticFields
  | .array element length =>
    if m.holdsReferences element then
      m.referencesOfElements element (m.descriptor element).size length
        (o.address.add lengthSize) []
    else
      .ok []

/-- One of the values keeps the object alive. -/
def valuesReferTo (target : Address) (values : List Value) : Except Error Bool :=
  values.anyM fun v => (m.ownedTargets v).map (·.contains target)

/-- One of the slots refers to the object. -/
def slotsReferTo (target : Address) (slots : List Binding) : Except Error Bool :=
  slots.anyM fun b => (m.referencesIn b.address b.type).map (·.contains target)

/-- A frame refers to the object: by its instance, its values, its locals or its arguments. -/
def frameRefersTo (target : Address) (f : Frame) : Except Error Bool := do
  if ← m.valuesReferTo target (f.receiver.toList ++ f.values.reverse) then
    return true
  m.slotsReferTo target (f.locals ++ f.arguments)

/-- Something refers to the object: a frame, a value in flight or another live object. -/
def isReferenced (target : Address) : Except Error Bool := do
  if ← m.stack.frames.reverse.anyM (m.frameRefersTo target) then
    return true
  if ← m.valuesReferTo target m.inFlight.reverse then
    return true
  m.heap.objects.anyM fun o =>
    if o.address = target then .ok false else (m.referencesOf o).map (·.contains target)

/-- The objects that the innermost frame's locals and values refer to. -/
def frameReferences : Except Error (List Address) := do
  let f ← m.stack.current
  let slots ← f.locals.mapM fun b => m.referencesIn b.address b.type
  let values ← f.values.reverse.mapM m.ownedTargets
  return (slots ++ values).flatten

end ManagedVm.Machine
