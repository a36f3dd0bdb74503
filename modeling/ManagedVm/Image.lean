import ManagedVm.Instruction.Basic
import ManagedVm.Scalar.Kind

/-!
# Program images

An image is the tables of one compiled program: constants and the pool of their bytes, strings,
declared types, references to types and members, and methods. Instructions name entries by index.
Nothing here is checked: an index may point past its table, and the types need not make sense. The
type table and the machine report what they find when they follow an index.
-/

namespace ManagedVm

/-- What a constant is made from. -/
inductive ConstantKind
  /-- Bytes of the pool, from the constant's offset on. -/
  | primitive (kind : Kind)
  /-- An entry of the string table, at the constant's offset. -/
  | string
  deriving DecidableEq, Inhabited

/-- An entry of the constant table. -/
structure Constant where
  kind : ConstantKind
  offset : Nat
  deriving DecidableEq, Inhabited

/-- The categories of types. -/
inductive Category
  | void
  | primitive (kind : Kind)
  | string
  /-- A value type, laid out inline wherever it is stored. -/
  | struct
  /-- A class, whose instances are on the heap. -/
  | object
  /-- An array on the heap of the underlying type. -/
  | array
  /-- An address of the underlying type. -/
  | pointer
  deriving DecidableEq, Inhabited

/-- A field of a type declaration. -/
structure FieldDeclaration where
  name : String
  type : Nat
  isStatic : Bool := false
  deriving DecidableEq, Inhabited

/-- A declared type. -/
structure TypeDeclaration where
  name : String
  category : Category
  /-- Element type of an array, pointee type of a pointer. -/
  underlying : Option Nat := none
  fields : List FieldDeclaration := []
  isStatic : Bool := false
  deriving DecidableEq, Inhabited

/-- The fields that every instance has. -/
def TypeDeclaration.instanceFields (d : TypeDeclaration) : List FieldDeclaration :=
  d.fields.filter (!·.isStatic)

/-- A type to construct, with the member that names its constructor. -/
structure TypeReference where
  type : Nat
  constructor : Nat
  deriving DecidableEq, Inhabited

/-- A member of a type. -/
inductive Member
  /-- A place in the owner's list of fields. -/
  | field (index : Nat)
  /-- A place in the method table. -/
  | method (index : Nat)
  deriving DecidableEq, Inhabited

/-- A member with the type that owns it. -/
structure MemberReference where
  owner : Nat
  member : Member
  deriving DecidableEq, Inhabited

/-- A parameter or a local of a method. -/
structure Variable where
  name : String
  type : Nat
  deriving DecidableEq, Inhabited

/-- An entry of the method table. -/
structure Method where
  name : String
  owner : Nat
  returnType : Nat
  isStatic : Bool := false
  isNative : Bool := false
  isConstructor : Bool := false
  parameters : List Variable := []
  locals : List Variable := []
  body : Array Instruction := #[]
  deriving DecidableEq, Inhabited

/-- The tables of one program. -/
structure Image where
  constants : Array Constant := #[]
  pool : Array UInt8 := #[]
  strings : Array String := #[]
  types : Array TypeDeclaration := #[]
  typeRefs : Array TypeReference := #[]
  memberRefs : Array MemberReference := #[]
  methods : Array Method := #[]
  deriving DecidableEq, Inhabited

namespace Image

/-- The pool's bytes of a primitive constant, if they all lie in the pool. -/
def constantBytes? (image : Image) (c : Constant) : Option (List UInt8) :=
  match c.kind with
  | .string => none
  | .primitive kind =>
    if c.offset + kind.size ≤ image.pool.size then
      some (image.pool.extract c.offset (c.offset + kind.size)).toList
    else
      none

/-- The first declared type of a name. -/
def findType? (image : Image) (name : String) : Option Nat :=
  image.types.findIdx? (·.name == name)

/-- The first method with a name whose owner has a given name. -/
def findMethod? (image : Image) (owner name : String) : Option Nat :=
  image.methods.findIdx? fun m =>
    m.name == name && (image.types[m.owner]?.any (·.name == owner))

end Image

end ManagedVm
