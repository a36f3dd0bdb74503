import ManagedVm.Machine.State

/-!
# Following the indices of a program

Instructions name constants, types, members and methods by index. The functions here say what an
index leads to, or which error it is to have one that leads nowhere. Indices are signed: a negative
one never leads anywhere.
-/

namespace ManagedVm

/-- The entry of a table that a signed index names. -/
def entry? {α : Type} (table : Array α) (index : Int32) : Option α :=
  if index < 0 then none else table[index.toInt.toNat]?

namespace Machine

variable (m : Machine)

/-- The method of an index. -/
def methodAt (index : Nat) : Except Error Method :=
  match m.image.methods[index]? with
  | some method => .ok method
  | none => .error (.unknownMethod index)

/-- The type of a declaration. -/
def declaredType (index : Nat) : Except Error TypeId :=
  (m.types.declared? index).mapError .type

/-- The name of a declared type. -/
def typeName (index : Nat) : Except Error String := do
  return (m.types.descriptor (← m.declaredType index)).name

/-- The name of a method with that of its owner, if the owner is a type. -/
def qualifiedName (method : Method) : String :=
  match m.typeName method.owner with
  | .ok owner => s!"{owner}::{method.name}"
  | .error _ => method.name

/-- The type returns no value. -/
def isVoid (type : TypeId) : Bool := (m.types.descriptor type).category == .void

/-- The method returns a value. -/
def returnsValue (method : Method) : Except Error Bool := do
  return !m.isVoid (← m.declaredType method.returnType)

/-- The constant of an index. -/
def constantAt (index : Int32) : Except Error Constant :=
  match entry? m.image.constants index with
  | some c => .ok c
  | none => .error (.unknownConstant index)

/-- The type of the values that a constant loads. -/
def constantType (index : Int32) : Except Error TypeId := do
  match (← m.constantAt index).kind with
  | .primitive kind => return m.types.builtins.primitive kind
  | .string => return m.types.builtins.string

/-- The member that a reference names, with its owner. -/
def memberAt (index : Int32) : Except Error MemberReference :=
  match entry? m.image.memberRefs index with
  | some r => .ok r
  | none => .error (.unknownMemberRef index)

/-- The owner and the place of a field; it must be static or not as wanted. -/
def fieldAt (member : Int32) (wantStatic : Bool) : Except Error (TypeId × FieldLayout) := do
  let r ← m.memberAt member
  match r.member with
  | .method _ => throw (.notAField member)
  | .field index =>
    let owner ← m.declaredType r.owner
    match (m.types.descriptor owner).fields[index]? with
    | none => throw (.notAField member)
    | some field =>
      if field.isStatic ≠ wantStatic then
        throw (.staticMismatch field.name wantStatic)
      return (owner, field)

/-- The method that a member reference names. -/
def methodOf (member : Int32) : Except Error Nat := do
  match (← m.memberAt member).member with
  | .method index => return index
  | .field _ => throw (.notAMethod member)

/-- The type that a type reference constructs, and its constructor. -/
def constructorOf (typeRef : Int32) : Except Error (TypeId × Nat) :=
  match entry? m.image.typeRefs typeRef with
  | none => .error (.unknownTypeRef typeRef)
  | some r => do
    let type ← m.declaredType r.type
    return (type, ← m.methodOf (.ofInt r.constructor))

/-- The type that an operand names. -/
def typeOperand (operand : Int32) : Except Error TypeId :=
  if operand < 0 then .error (.unknownTypeRef operand) else m.declaredType operand.toInt.toNat

end Machine

end ManagedVm
