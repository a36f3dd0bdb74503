import ManagedVm.Size
import ManagedVm.Types.Descriptor

/-!
# The type table

The table is built from the declarations of an image: first every type gets the size of its slot,
depth first through the structs, then every field gets its offset, and at the end the built-in types
that were not declared are added behind the declared ones.

`TypeTable.ofImage` refuses an image in which an index leads nowhere, an array or a pointer has no
underlying type, a struct contains itself by value, or a built-in name is declared twice. The order
of the passes decides which of several faults is reported. Sizes and offsets that no word holds are
not refused; the build decides what becomes of them.
-/

namespace ManagedVm

/-- Why the declared types make no table. -/
inductive TypeError
  /-- The index is no declared type. -/
  | unknownType (index : Nat)
  /-- An array or a pointer to nothing. -/
  | missingUnderlyingType (name : String)
  /-- A struct that contains itself. -/
  | recursiveLayout (name : String)
  /-- A built-in name declared a second time. -/
  | duplicateBuiltin (name : String)
  /-- The program stops: no word holds a size or an offset. -/
  | panic
  deriving DecidableEq, Inhabited, Repr

/-- The text of the error. -/
def TypeError.message : TypeError → String
  | unknownType index => s!"unknown type definition #{index}"
  | missingUnderlyingType name => s!"type '{name}' has no underlying type"
  | recursiveLayout name => s!"struct '{name}' contains itself by value"
  | duplicateBuiltin name => s!"builtin type '{name}' is declared more than once"
  | panic => "the program stopped"

/-! ## Sizes of slots -/

namespace Layout

/-- The sizes found so far, by declaration. -/
abbrev Sizes := Array (Option Nat)

/-- A declaration's underlying type must be declared, and an array or a pointer must have one. -/
def checkUnderlying (count : Nat) (d : TypeDeclaration) : Except TypeError Unit :=
  match d.underlying with
  | some u => if u < count then .ok () else .error (.unknownType u)
  | none =>
    if d.category = .array ∨ d.category = .pointer then .error (.missingUnderlyingType d.name)
    else .ok ()

variable [Build]

/-- The size of a slot of declaration `index`, with the sizes learned on the way.

`path` holds the structs whose size is being computed; to meet one of them again means that it
contains itself. The path cannot grow longer than the table, so `fuel`, one more than the length of
the table, does not run out. -/
def slotSize (types : Array TypeDeclaration) :
    (fuel : Nat) → (path : List Nat) → Sizes → (index : Nat) → Except TypeError (Nat × Sizes)
  | 0, _, _, index => .error (.unknownType index)
  | fuel + 1, path, known, index =>
    match types[index]?, known[index]? with
    | none, _ => .error (.unknownType index)
    | some _, some (some size) => .ok (size, known)
    | some d, _ =>
      if index ∈ path then
        .error (.recursiveLayout d.name)
      else
        match d.category.slotSize? with
        | some size => .ok (size, known.setIfInBounds index (some size))
        | none => do
          let (total, known) ← d.instanceFields.foldlM
            (fun (total, known) f => do
              let (size, known) ← slotSize types fuel (index :: path) known f.type
              return (← Size.fit .panic (total + size), known))
            (0, known)
          return (total, known.setIfInBounds index (some total))

/-- The size of a slot of each declared type. -/
def slotSizes (types : Array TypeDeclaration) : Except TypeError (List Nat) := do
  let (sizes, _) ← (List.range types.size).foldlM
    (fun (sizes, known) index => do
      let (size, known) ← slotSize types (types.size + 1) [] known index
      return (sizes ++ [size], known))
    ([], Array.replicate types.size none)
  return sizes

/-! ## Offsets of fields -/

/-- The fields of a type with their offsets. Instance and static fields are packed separately;
`instanceAt` and `staticAt` are the first free bytes of the two. The result ends with the bytes
each of them takes. -/
def placeFields (sizes : List Nat) :
    (instanceAt staticAt : Nat) → List FieldDeclaration →
      Except TypeError (List FieldLayout × Nat × Nat)
  | instanceAt, staticAt, [] => .ok ([], instanceAt, staticAt)
  | instanceAt, staticAt, f :: rest =>
    match sizes[f.type]? with
    | none => .error (.unknownType f.type)
    | some size => do
      let placed : FieldLayout :=
        { name := f.name
          type := ⟨f.type⟩
          offset := if f.isStatic then staticAt else instanceAt
          size
          isStatic := f.isStatic }
      let (fields, total) ←
        if f.isStatic then placeFields sizes instanceAt (← Size.fit .panic (staticAt + size)) rest
        else placeFields sizes (← Size.fit .panic (instanceAt + size)) staticAt rest
      return (placed :: fields, total)

/-- The descriptor of a declared type. -/
def describe (sizes : List Nat) (d : TypeDeclaration) (index : Nat) :
    Except TypeError Descriptor := do
  let (fields, instanceSize, staticSize) ← placeFields sizes 0 0 d.fields
  return {
    id := ⟨index⟩
    name := d.name
    category := d.category
    size := sizes[index]?.getD 0
    underlying := d.underlying.map TypeId.mk
    fields
    instanceSize
    staticSize
    isStatic := d.isStatic }

end Layout

/-! ## Built-in types -/

/-- The types that the machine itself makes values of, with their names and slot sizes. -/
def builtinTypes : List (String × Category) :=
  ("void", .void) :: ("string", .string) :: Kind.all.map fun k => (k.name, .primitive k)

/-- The name belongs to a built-in type. -/
def isBuiltinName (name : String) : Bool := builtinTypes.any (·.1 == name)

namespace Layout

/-- The first built-in name that a list of names repeats; `seen` are the names before the list. -/
def duplicateBuiltin? (seen : List String) : List String → Option String
  | [] => none
  | name :: rest =>
    if seen.contains name && isBuiltinName name then some name
    else duplicateBuiltin? (name :: seen) rest

end Layout

/-- The types the machine makes values of. -/
structure Builtins where
  void : TypeId := ⟨0⟩
  string : TypeId := ⟨0⟩
  /-- The primitive types, in the order of the kinds. -/
  primitives : Array TypeId := #[]
  deriving DecidableEq, Inhabited

/-- The type of the scalars of a kind. -/
def Builtins.primitive (b : Builtins) (k : Kind) : TypeId := b.primitives[k.ordinal]?.getD ⟨0⟩

/-- All types of a program. -/
structure TypeTable where
  /-- The declared types, then the added built-in ones. -/
  descriptors : Array Descriptor := #[]
  /-- The number of declared types. -/
  declared : Nat := 0
  builtins : Builtins := {}
  deriving DecidableEq, Inhabited

namespace TypeTable

/-- The type of a name; of several the last declared. -/
def find? (t : TypeTable) (name : String) : Option TypeId :=
  (t.descriptors.findRev? (·.name == name)).map (·.id)

/-- The built-in type of a name, added behind the others if it was not declared. -/
def addBuiltin (t : TypeTable) (name : String) (category : Category) : TypeId × TypeTable :=
  match t.find? name with
  | some id => (id, t)
  | none =>
    let id : TypeId := ⟨t.descriptors.size⟩
    let size := category.slotSize?.getD 0
    (id, { t with descriptors := t.descriptors.push { id, name, category, size } })

/-- Adds the built-in types that were not declared. -/
def addBuiltins (t : TypeTable) : TypeTable :=
  let (void, t) := t.addBuiltin "void" .void
  let (string, t) := t.addBuiltin "string" .string
  let (primitives, t) := Kind.all.foldl
    (fun (ids, t) k =>
      let (id, t) := t.addBuiltin k.name (.primitive k)
      (ids.push id, t))
    (#[], t)
  { t with builtins := { void, string, primitives } }

/-- The table of an image's types. -/
def ofImage [Build] (image : Image) : Except TypeError TypeTable := do
  let types := image.types.toList
  types.forM (Layout.checkUnderlying types.length)
  let sizes ← Layout.slotSizes image.types
  let descriptors ← types.zipIdx.mapM fun (d, index) => Layout.describe sizes d index
  match Layout.duplicateBuiltin? [] (types.map (·.name)) with
  | some name => .error (.duplicateBuiltin name)
  | none =>
    let table : TypeTable := { descriptors := descriptors.toArray, declared := types.length }
    return table.addBuiltins

/-- The descriptor of a type. -/
def descriptor (t : TypeTable) (id : TypeId) : Descriptor := t.descriptors[id.index]?.getD default

/-- The type of a declaration. -/
def declared? (t : TypeTable) (index : Nat) : Except TypeError TypeId :=
  if index < t.declared then .ok ⟨index⟩ else .error (.unknownType index)

end TypeTable

end ManagedVm
