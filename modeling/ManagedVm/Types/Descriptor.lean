import ManagedVm.Image
import ManagedVm.Value

/-!
# Type descriptors

A descriptor is what the machine knows of a type: how many bytes a slot of it takes and where its
fields are. Slots are packed without padding. A slot of a string, class, array or pointer type holds
an address; the other types lie in their slots inline.
-/

namespace ManagedVm

namespace Category

/-- A slot of the category owns a heap object. -/
def isReference : Category → Bool
  | string | object | array => true
  | void | primitive _ | struct | pointer => false

/-- A slot of the category holds an address. -/
def holdsAddress (c : Category) : Bool := c.isReference || c == pointer

/-- Bytes of a slot, for the categories where the fields do not matter. -/
def slotSize? : Category → Option Nat
  | void => some 0
  | primitive kind => some kind.size
  | string | object | array | pointer => some Address.slotSize
  | struct => none

/-- The primitive kind of the category. -/
def primitive? : Category → Option Kind
  | primitive kind => some kind
  | _ => none

end Category

/-- Where a field is. An instance field is counted from the start of the instance, a static one from
the start of the type's static block. -/
structure FieldLayout where
  name : String
  type : TypeId
  offset : Nat
  size : Nat
  isStatic : Bool
  deriving DecidableEq, Inhabited

/-- What the machine knows of a type. -/
structure Descriptor where
  id : TypeId
  name : String
  category : Category
  /-- Bytes of one slot. -/
  size : Nat
  /-- Element type of an array, pointee type of a pointer. -/
  underlying : Option TypeId := none
  /-- All fields, in the order of their declaration. -/
  fields : List FieldLayout := []
  /-- Bytes of the instance fields together. -/
  instanceSize : Nat := 0
  /-- Bytes of the static fields together. -/
  staticSize : Nat := 0
  isStatic : Bool := false
  deriving DecidableEq, Inhabited

namespace Descriptor

/-- The fields that every instance has. -/
def instanceFields (d : Descriptor) : List FieldLayout := d.fields.filter (!·.isStatic)

/-- The fields of the static block. -/
def staticFields (d : Descriptor) : List FieldLayout := d.fields.filter (·.isStatic)

end Descriptor

end ManagedVm
