import ManagedVm.Assembler.Routine
import ManagedVm.Scalar.Basic

/-!
# The assembler

Builds an image entry by entry. Built-in types and the arrays and pointers derived from a type are
made when they are first asked for and are known by their names afterwards; a type that was declared
under such a name, whatever it is, is taken for it. Equal strings share an entry of the string
table. Types and strings are not searched for in the image: the assembler notes where each one stands
when it adds it.
-/

namespace ManagedVm

namespace Assembler

/-- Where texts stand in a table. -/
structure Index where
  /-- The text that was noted last comes first. -/
  entries : List (String × Nat) := []
  deriving DecidableEq

namespace Index

/-- The place that was noted last for a text. -/
def find? (x : Index) (text : String) : Option Nat := x.entries.lookup text

/-- Notes the place of a text. -/
def insert (x : Index) (text : String) (place : Nat) : Index := ⟨(text, place) :: x.entries⟩

end Index

/-- An image that is being assembled, and where its types and strings stand. -/
structure Draft where
  image : Image := {}
  typesByName : Index := {}
  stringsByValue : Index := {}

end Assembler

/-- Operations that add to an image. A failing operation leaves the image as it was. -/
abbrev Assembler := EStateM Assembler.Error Assembler.Draft

namespace Assembler

/-- Changes tables of the image that have no index, and returns something of it. -/
@[inline] def update {α : Type} (f : Image → α × Image) : Assembler α :=
  modifyGet fun draft =>
    let (a, image) := f draft.image
    (a, { draft with image })

/-! ## Types -/

/-- Puts a type behind the others. -/
def Draft.pushType (draft : Draft) (d : TypeDeclaration) : Draft :=
  { draft with
    image.types := draft.image.types.push d
    typesByName := draft.typesByName.insert d.name draft.image.types.size }

/-- Declares a type. -/
def addType (d : TypeDeclaration) : Assembler Nat :=
  modifyGet fun draft => (draft.image.types.size, draft.pushType d)

/-- The type of the declaration's name, declared if there is none. -/
def namedType (d : TypeDeclaration) : Assembler Nat := do
  match (← get).typesByName.find? d.name with
  | some index => return index
  | none => addType d

/-- The built-in type without values. -/
def voidType : Assembler Nat := namedType { name := "void", category := .void }

/-- The built-in type of strings. -/
def stringType : Assembler Nat := namedType { name := "string", category := .string }

/-- The built-in type of a kind. -/
def primitiveType (k : Kind) : Assembler Nat :=
  namedType { name := k.name, category := .primitive k }

/-- The built-in type of whole numbers. -/
def intType : Assembler Nat := primitiveType (.word .int)

/-- The built-in type of truth values. -/
def boolType : Assembler Nat := primitiveType .bool

/-- The name of a declared type. -/
def typeName (image : Image) (index : Nat) : String := (image.types[index]?.map (·.name)).getD ""

/-- The type of arrays of a type. -/
def arrayOf (element : Nat) : Assembler Nat := do
  let name := typeName (← get).image element ++ "[]"
  namedType { name, category := .array, underlying := some element }

/-- The type of pointers to a type. -/
def pointerTo (pointee : Nat) : Assembler Nat := do
  let name := typeName (← get).image pointee ++ "*"
  namedType { name, category := .pointer, underlying := some pointee }

/-- Declares a type without fields; they are added afterwards, so that types may refer to each
other. -/
def composite (name : String) (category : Category) : Assembler Nat := addType { name, category }

/-- Declares a class for static members. -/
def staticClass (name : String) : Assembler Nat :=
  addType { name, category := .object, isStatic := true }

/-! ## Members -/

/-- Adds a reference to a member. -/
def memberRef (owner : Nat) (member : Member) : Assembler Nat :=
  update fun image =>
    (image.memberRefs.size, { image with memberRefs := image.memberRefs.push ⟨owner, member⟩ })

/-- Adds a field to a type, and a reference to it. -/
def addField (owner : Nat) (name : String) (type : Nat) (isStatic : Bool) : Assembler Nat := do
  let count ← update fun image =>
    ((image.types[owner]?.map (·.fields.length)).getD 0,
      { image with types := image.types.modify owner fun d =>
          { d with fields := d.fields ++ [{ name, type, isStatic }] } })
  memberRef owner (.field count)

/-- Adds a reference to the first field of a name. -/
def fieldRef (owner : Nat) (name : String) : Assembler Nat := do
  match (← get).image.types[owner]? >>= (·.fields.findIdx? (·.name == name)) with
  | some index => memberRef owner (.field index)
  | none => throw (.unknownField owner name)

/-- Adds a method. -/
def addMethod (r : Routine) : Assembler Nat := do
  match r.finish with
  | .error e => throw e
  | .ok method =>
    update fun image =>
      (image.methods.size, { image with methods := image.methods.push method })

/-- Adds a method, and a reference to it for calls. -/
def addCallable (r : Routine) : Assembler Nat := do
  let index ← addMethod r
  memberRef r.method.owner (.method index)

/-- Adds a constructor, and a reference to its type for constructions. -/
def addConstructor (r : Routine) : Assembler Nat := do
  let constructor ← addCallable { r with method.isConstructor := true }
  update fun image =>
    (image.typeRefs.size,
      { image with typeRefs := image.typeRefs.push ⟨r.method.owner, constructor⟩ })

/-! ## Constants -/

/-- Adds a primitive constant with its bytes. -/
def addConstant (kind : Kind) (bytes : List UInt8) : Assembler Nat :=
  update fun image =>
    (image.constants.size,
      { image with
        pool := image.pool ++ bytes.toArray
        constants := image.constants.push ⟨.primitive kind, image.pool.size⟩ })

/-- Adds a primitive constant of the built-in type of its kind. -/
def scalarConstant (s : Scalar) : Assembler Nat := do
  discard <| primitiveType s.kind
  addConstant s.kind s.encode

/-- Adds a whole number. -/
def intConstant (i : Int) : Assembler Nat := scalarConstant (.ofInt .int i)

/-- The first UTF-16 code unit of a character. -/
def firstUnit (c : Char) : Nat :=
  if c.toNat < 0x10000 then c.toNat else 0xD800 + (c.toNat - 0x10000) / 0x400

/-- Adds a character, of which only the first code unit is kept. -/
def charConstant (c : Char) : Assembler Nat := scalarConstant (.ofInt .char (firstUnit c))

/-- Puts a string behind the others. -/
def Draft.pushString (draft : Draft) (text : String) : Draft :=
  { draft with
    image.strings := draft.image.strings.push text
    stringsByValue := draft.stringsByValue.insert text draft.image.strings.size }

/-- The entry of a string in the string table, added if it is new. -/
def internString (text : String) : Assembler Nat :=
  modifyGet fun draft =>
    match draft.stringsByValue.find? text with
    | some index => (index, draft)
    | none => (draft.image.strings.size, draft.pushString text)

/-- Adds a string constant. -/
def stringConstant (text : String) : Assembler Nat := do
  discard stringType
  let offset ← internString text
  update fun image =>
    (image.constants.size,
      { image with constants := image.constants.push ⟨.string, offset⟩ })

/-- The image that an assembly yields, with its result. -/
def assemble {α : Type} (x : Assembler α) : Except Error (α × Image) :=
  match x {} with
  | .ok a draft => .ok (a, draft.image)
  | .error e _ => .error e

end Assembler

end ManagedVm
