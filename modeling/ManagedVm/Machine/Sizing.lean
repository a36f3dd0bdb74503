import ManagedVm.Machine.Members
import ManagedVm.Naturals

/-!
# Sizing the evaluation stack

Before a method runs, its body is walked once from front to back with types in place of values. The
walk follows no branch, so it counts every push of the text once. It yields the greatest depth of
the evaluation stack and the bytes of everything pushed, which is how much scratch a frame is given;
it also refuses bodies that pop from an empty stack or name what does not exist.
-/

namespace ManagedVm

open scoped Naturals

namespace Sizing

/-- What stands for a value on the evaluation stack. -/
inductive Entry
  /-- A value of the type. -/
  | value (type : TypeId)
  /-- A pointer to the type. -/
  | pointer (type : TypeId)
  /-- The number of the type. -/
  | token (type : TypeId)
  deriving DecidableEq, Inhabited

/-- The type of an entry. -/
def Entry.type : Entry → TypeId
  | value t | pointer t | token t => t

/-- The walk so far. -/
structure State where
  /-- The entries, topmost first. -/
  stack : List Entry := []
  /-- The greatest number of entries. -/
  maxDepth : Nat := 0
  /-- Bytes of all entries pushed. -/
  bytes : Nat := 0
  deriving DecidableEq, Inhabited

/-- Bytes of an entry's value. -/
def entrySize (types : TypeTable) : Entry → Nat
  | .value t => (types.descriptor t).size
  | .pointer _ => Address.slotSize
  | .token _ => WordKind.int.size

namespace State

/-- Pushes an entry. -/
def push [Build] (s : State) (types : TypeTable) (e : Entry) : Except Error State := do
  return {
    stack := e :: s.stack
    maxDepth := max s.maxDepth (s.stack.length + 1)
    bytes := ← Size.fit .panic (s.bytes + entrySize types e) }

/-- Pops an entry. -/
def pop (s : State) : Except Error (Entry × State) :=
  match s.stack with
  | [] => .error .evalStackUnderflow
  | e :: rest => .ok (e, { s with stack := rest })

/-- Drops entries. -/
def drop (s : State) (count : Nat) : Except Error State :=
  if s.stack.length < count then .error .evalStackUnderflow
  else .ok { s with stack := s.stack.drop count }

/-- Drops the token that the opcode needs. -/
def dropToken (s : State) (op : Opcode) : Except Error State :=
  match s.stack with
  | .token _ :: rest => .ok { s with stack := rest }
  | _ => .error (.missingTypeToken op)

end State

variable [Build] (m : Machine) (method : Method)

/-- The type of a declaration; a negative number is read as an unsigned one. -/
def typeOf (index : Int32) : Except Error TypeId :=
  m.declaredType index.toUInt32.toNat

/-- The element type of an array's entry. -/
def elementOf (e : Entry) : Except Error TypeId :=
  let d := m.types.descriptor e.type
  if d.category ≠ .array then
    .error (.unexpectedValue "array" "non-array")
  else
    match d.underlying with
    | some t => .ok t
    | none => .error (.type (.missingUnderlyingType d.name))

/-- The type of the variable that a signed index names. -/
def variableType (vars : List Variable) (index : Int32) (missing : Error) :
    Except Error TypeId :=
  if index < 0 then
    .error missing
  else
    match vars[index.toInt.toNat]? with
    | some v => m.declaredType v.type
    | none => .error missing

/-- The type of a local. -/
def localType (index : Int32) : Except Error TypeId :=
  variableType m method.locals index (.unknownLocal index)

/-- The type of an argument. -/
def argumentType (index : Int32) : Except Error TypeId :=
  variableType m method.parameters index (.unknownArgument index)

/-- The type of a field. -/
def fieldType (member : Int32) (isStatic : Bool) : Except Error TypeId := do
  return (← m.fieldAt member isStatic).2.type

/-- The walk over one instruction. -/
def step (s : State) (i : Instruction) : Except Error State := do
  let types := m.types
  let builtins := types.builtins
  match i.op with
  | .nop | .ret | .br => return s
  | .add | .sub | .mul | .div | .mod | .or | .and | .xor | .shl | .shr =>
    let (_, s) ← s.pop
    let (left, s) ← s.pop
    s.push types left
  | .cnct =>
    let s ← s.drop 2
    s.push types (.value builtins.string)
  | .ceq | .cne | .cgt | .cge | .clt | .cle =>
    let s ← s.drop 2
    s.push types (.value (builtins.primitive .bool))
  | .neg =>
    let (e, s) ← s.pop
    s.push types e
  | .ldc | .ldstr => s.push types (.value (← m.constantType i.operand))
  | .ldlen =>
    let s ← s.drop 1
    s.push types (.value (builtins.primitive (.word .int)))
  | .lddft => s.push types (.value (← typeOf m i.operand))
  | .ldloc => s.push types (.value (← localType m method i.operand))
  | .ldarg => s.push types (.value (← argumentType m method i.operand))
  | .stloc | .starg | .stsfld | .brtrue | .brfalse => s.drop 1
  | .ldfld =>
    let s ← s.drop 1
    s.push types (.value (← fieldType m i.operand false))
  | .stfld | .stind => s.drop 2
  | .ldsfld => s.push types (.value (← fieldType m i.operand true))
  | .ldthis => s.push types (.value (← m.declaredType method.owner))
  | .ldelem =>
    let (array, s) ← s.pop
    let s ← s.drop 1
    s.push types (.value (← elementOf m array))
  | .stelem => s.drop 3
  | .ldflda =>
    let s ← s.dropToken i.op
    let s ← s.drop 1
    s.push types (.pointer (← fieldType m i.operand false))
  | .ldsflda =>
    let s ← s.dropToken i.op
    s.push types (.pointer (← fieldType m i.operand true))
  | .ldloca =>
    let s ← s.dropToken i.op
    s.push types (.pointer (← localType m method i.operand))
  | .ldarga =>
    let s ← s.dropToken i.op
    s.push types (.pointer (← argumentType m method i.operand))
  | .ldelema =>
    let (array, s) ← s.pop
    let s ← s.drop 1
    let s ← s.dropToken i.op
    s.push types (.pointer (← elementOf m array))
  | .ldind | .conv | .newarr =>
    let s ← s.drop 1
    s.push types (.value (← typeOf m i.operand))
  | .ldtype => s.push types (.token (← typeOf m i.operand))
  | .newobj =>
    let (type, constructor) ← m.constructorOf i.operand
    let s ← s.drop (← m.methodAt constructor).parameters.length
    s.push types (.value type)
  | .call =>
    let callee ← m.methodAt (← m.methodOf i.operand)
    let s ← s.drop (callee.parameters.length + if callee.isStatic then 0 else 1)
    let result ← m.declaredType callee.returnType
    if m.isVoid result then return s else s.push types (.value result)

/-- The walk over a body. -/
def walk (body : Array Instruction) : Except Error State :=
  body.toList.foldlM (step m method) {}

end Sizing

namespace Machine

variable [Build] (m : Machine)

/-- The walk over the body of a method. -/
def sizing (index : Nat) : Except Error (Method × Sizing.State) := do
  let method ← m.methodAt index
  return (method, ← Sizing.walk m method method.body)

/-- Bytes of scratch that the natives called in a method's body may take. -/
def nativeReserve (index : Nat) : Except Error Nat := do
  let method ← m.methodAt index
  let calls := method.body.toList.filter (·.op == .call)
  calls.foldlM (fun total i => do
    let callee ← m.methodAt (← m.methodOf i.operand)
    if callee.isNative then
      let found := m.natives.find? (← m.typeName callee.owner) callee.name
      Size.fit .panic (total + found.elim 0 (·.reserve))
    else
      return total) 0

end Machine

namespace Exec

/-- The depth and the bytes that the evaluation stack of a method needs. -/
def size [Build] (index : Nat) : Exec (Nat × Nat) := do
  let (method, s) ← query (·.sizing index)
  record (.sized method.name s.maxDepth s.bytes)
  return (s.maxDepth, s.bytes)

end Exec

end ManagedVm
