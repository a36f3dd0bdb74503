import ManagedVm.Machine.Allocation
import ManagedVm.Machine.Release

/-!
# Instructions at work

What each instruction does to the machine. Operands are popped first, then checked, then the result
is pushed, and last of all what the operands kept alive is released, so that a result that shares an
object with an operand keeps it.

An instruction that invokes a method does not run it here: `step` answers with the request and with
what is left to do once the method has returned.
-/

namespace ManagedVm

/-- A method to run, the instance for it and its arguments. -/
structure Request where
  method : Nat
  receiver : Option Value := none
  arguments : List Value := []
  deriving DecidableEq, Inhabited

/-- An invocation that an instruction waits for. -/
inductive Pending
  /-- A call, with the operands it took. -/
  | call (receiver : Option Value) (arguments : List Value)
  /-- A construction, with the new instance and the arguments of its constructor. -/
  | construct (created : Value) (arguments : List Value)
  deriving DecidableEq, Inhabited

/-- How a body goes on after an instruction. -/
inductive Flow
  /-- With the next instruction. -/
  | next
  /-- With the instruction at a place. -/
  | jump (target : Nat)
  /-- Not at all. -/
  | finish
  /-- With the next instruction, after an invocation. -/
  | invoke (request : Request) (pending : Pending)
  deriving DecidableEq, Inhabited

/-- The scalar operation of an opcode. -/
def Opcode.operator? : Opcode → Option Scalar.Operator
  | .add => some .add
  | .sub => some .sub
  | .mul => some .mul
  | .div => some .div
  | .mod => some .rem
  | .or => some .or
  | .and => some .and
  | .xor => some .xor
  | .shl => some .shl
  | .shr => some .shr
  | _ => none

/-- The instruction a branch in a body leads to; the place behind the last one is allowed. -/
def branchTarget (operand : Int32) (length : Nat) : Except Error Nat :=
  if 0 ≤ operand ∧ operand.toInt.toNat ≤ length then .ok operand.toInt.toNat
  else .error (.branchOutOfRange operand)

namespace Machine

variable [Build] (m : Machine)

/-- The error of an opcode that does not take such operands. -/
def unsupportedOperands (op : Opcode) (left right : Value) : Error :=
  .unsupportedOperation op.mnemonic s!"{left.shape} and {right.shape}"

/-- The comparison of two values. Scalars compare by number, strings by their characters, structs by
their bytes and addresses by themselves; the last two only for equality. -/
def compareValues (op : Opcode) (c : Scalar.Comparison) (left right : Value) :
    Except Error Bool := do
  match left, right with
  | .primitive .., .primitive .. =>
    let a ← m.readScalar left
    let b ← m.readScalar right
    (Scalar.compare c a b).mapError .ofScalar
  | .string _ a, .string _ b =>
    if !a.isNull && !b.isNull then
      let a ← m.readString left
      let b ← m.readString right
      return c.holds (some (compareOfLessAndEq a b))
    else if c.isEquality then
      return (a == b) == (c == .eq)
    else
      throw (unsupportedOperands op left right)
  | .struct .., .struct .. =>
    if c.isEquality then
      let a ← m.valueBytes left
      let b ← m.valueBytes right
      return (a == b) == (c == .eq)
    else
      throw (unsupportedOperands op left right)
  | left, right =>
    if left.isAddress && right.isAddress && c.isEquality then
      return (left.location == right.location) == (c == .eq)
    else
      throw (unsupportedOperands op left right)

end Machine

namespace Exec

variable [Build]

/-- Pops the number of a type that `ldtype` pushed. -/
def popToken (op : Opcode) : Exec TypeId := do
  let token ← pop.mapError fun _ => .missingTypeToken op
  let int ← query fun m => .ok (m.types.builtins.primitive (.word .int))
  match token with
  | .primitive type _ =>
    if type = int then
      let index ← query (·.readIndex token)
      query (·.typeOperand (.ofInt index))
    else
      throw (.missingTypeToken op)
  | _ => throw (.missingTypeToken op)

/-- Pops values; the one popped last comes first. -/
def popArguments (count : Nat) : Exec (List Value) :=
  go count []
where
  go : Nat → List Value → Exec (List Value)
    | 0, popped => return popped
    | count + 1, popped => do
      let v ← pop
      go count (v :: popped)

/-- Concatenation, and arithmetic on scalars. To add to a string is to concatenate. -/
def binary (op : Opcode) : Exec Unit := do
  let right ← pop
  let left ← pop
  let concatenate := match op, left with
    | .cnct, _ | .add, .string .. => true
    | _, _ => false
  let result ←
    if concatenate then do
      let a ← query (·.textOf left)
      let b ← query (·.textOf right)
      makeString (a ++ b)
    else
      match left, right, op.operator? with
      | .primitive type _, .primitive .., some operator => do
        let a ← query (·.readScalar left)
        let b ← query (·.readScalar right)
        let s ← query fun _ => (Scalar.binary operator a b).mapError .ofScalar
        makePrimitive type s
      | _, _, _ => throw (Machine.unsupportedOperands op left right)
  push result
  releaseValue left
  releaseValue right

/-- A comparison. -/
def compare (op : Opcode) (c : Scalar.Comparison) : Exec Unit := do
  let right ← pop
  let left ← pop
  let holds ← query (·.compareValues op c left right)
  push (← makeScalar (.bool holds))
  releaseValue left
  releaseValue right

/-- A value as one of another type. A scalar becomes a string by its text; everything else is read
anew from its bytes, cut or filled with zeros to the size of the type. -/
def convert (v : Value) (type : TypeId) : Exec Value := do
  let d ← query fun m => .ok (m.descriptor type)
  match d.category, v with
  | .string, .primitive .. => do
    let s ← query (·.readScalar v)
    makeString s.text
  | .string, .string .. => return v
  | _, _ => do
    let bytes ← query (·.valueBytes v)
    let address ← carve d.size
    let kept := bytes.take d.size
    if !kept.isEmpty then
      write address kept
    query (·.materialize type address)

/-- A new array of a length taken from the stack. -/
def newArray (operand : Int32) : Exec Unit := do
  let length ← pop
  let type ← query (·.typeOperand operand)
  let count ← query (·.readIndex length)
  if count < 0 then
    throw (.negativeArrayLength count)
  let limit ← query fun m => .ok m.heap.settings.maxSize.toNat
  if UInt32.size ≤ count then
    throw (.heap (.outOfMemory count.toNat limit))
  push (← makeArray type count.toNat)

/-- Takes the operands of a call. A pointer to a struct is the struct as an instance; the pointer
itself is held meanwhile, because the struct does not keep alive what it is part of. -/
def beginCall (member : Int32) : Exec Flow := do
  let index ← query (·.methodOf member)
  let method ← query (·.methodAt index)
  let receiver ← if method.isStatic then pure none else some <$> pop
  let bound ← query fun m => .ok <| receiver.map fun v =>
    match v with
    | .pointer pointee target =>
      if (m.descriptor pointee).category = .struct then .struct pointee target else v
    | v => v
  let arguments ← popArguments method.parameters.length
  match receiver with
  | some (.pointer pointee target) => pin (.pointer pointee target)
  | _ => pure ()
  return .invoke { method := index, receiver := bound, arguments } (.call receiver arguments)

/-- Takes the arguments of a constructor and makes the instance, which is held until it is on the
stack. -/
def beginConstruction (typeRef : Int32) : Exec Flow := do
  let (type, constructor) ← query (·.constructorOf typeRef)
  let method ← query (·.methodAt constructor)
  let arguments ← popArguments method.parameters.length
  let d ← query fun m => .ok (m.descriptor type)
  if d.category ≠ .struct ∧ d.category ≠ .object then
    throw (.notConstructible d.name)
  let created ← makeDefault type
  pin created
  return .invoke { method := constructor, receiver := some created, arguments }
    (.construct created arguments)

/-- Lets go of what an invocation was held for. -/
def unpinPending : Pending → Exec Unit
  | .call (some (.pointer ..)) _ => unpin
  | .call .. => pure ()
  | .construct .. => unpin

/-- Pushes the result of an invocation and releases its operands. -/
def complete (result : Option Value) : Pending → Exec Unit
  | .call receiver arguments => do
    if let some v := result then
      push v
    arguments.forM releaseValue
    receiver.forM releaseValue
  | .construct created arguments => do
    push created
    if let some v := result then
      if v ≠ created then
        releaseValue v
    arguments.forM releaseValue

/-- Branches to the operand if the condition on the stack has the wanted truth. -/
def branchIf (wanted : Bool) (operand : Int32) (length : Nat) : Exec Flow := do
  let target ← query fun _ => branchTarget operand length
  let condition ← pop
  let truthy ← query (·.isTruthy condition)
  releaseValue condition
  return if truthy = wanted then .jump target else .next

/-- Pushes the value of a slot of the innermost frame. -/
def loadSlot (choose : Frame → Except Error Binding) : Exec Unit := do
  let b ← query (·.slot choose)
  push (← load b.type b.address)

/-- Pops a value into a slot of the innermost frame. -/
def storeSlot (choose : Frame → Except Error Binding) : Exec Unit := do
  let v ← pop
  assignSlot choose v
  releaseValue v

/-- Pushes a pointer to a slot of the innermost frame. -/
def loadSlotAddress (op : Opcode) (choose : Frame → Except Error Binding) : Exec Unit := do
  let pointee ← popToken op
  let b ← query (·.slot choose)
  push (.pointer pointee b.address)

/-- The target of a pointer. -/
def pointerTarget (v : Value) : Except Error Address :=
  match v with
  | .pointer _ target => .ok target
  | v => .error (.unexpected "pointer" v)

/-- The effect of the instructions that are always followed by the next one. -/
def perform (i : Instruction) : Exec Unit := do
  let operand := i.operand
  match i.op with
  | .add | .sub | .mul | .div | .mod | .cnct | .or | .and | .xor | .shl | .shr => binary i.op
  | .ceq => compare i.op .eq
  | .cne => compare i.op .ne
  | .cgt => compare i.op .gt
  | .cge => compare i.op .ge
  | .clt => compare i.op .lt
  | .cle => compare i.op .le
  | .neg =>
    let v ← pop
    match v with
    | .primitive type _ =>
      let s ← query (·.readScalar v)
      let negated ← query fun _ => s.negate.mapError .ofScalar
      push (← makePrimitive type negated)
      releaseValue v
    | _ => throw (.unexpected "primitive" v)
  | .ldc => push (← makeConstant operand)
  | .ldstr =>
    let v ← makeConstant operand
    match v with
    | .string .. => push v
    | _ => throw (.unexpected "string" v)
  | .lddft =>
    let type ← query (·.typeOperand operand)
    push (← makeDefault type)
  | .ldlen =>
    let array ← pop
    let length ← query (·.arrayLength array)
    push (← makeScalar (.ofInt .int length))
    releaseValue array
  | .ldloc => loadSlot (·.getLocal operand)
  | .stloc => storeSlot (·.getLocal operand)
  | .ldarg => loadSlot (·.getArgument operand)
  | .starg => storeSlot (·.getArgument operand)
  | .ldfld =>
    let receiver ← pop
    let (_, field) ← query (·.fieldAt operand false)
    let address ← query (·.fieldAddress receiver field)
    push (← load field.type address)
    releaseValue receiver
  | .stfld =>
    let receiver ← pop
    let v ← pop
    let (_, field) ← query (·.fieldAt operand false)
    let address ← query (·.fieldAddress receiver field)
    assign address field.type v
    releaseValue v
    releaseValue receiver
  | .ldsfld =>
    let (owner, field) ← query (·.fieldAt operand true)
    let address ← query (·.staticFieldAddress owner field)
    push (← load field.type address)
  | .stsfld =>
    let v ← pop
    let (owner, field) ← query (·.fieldAt operand true)
    let address ← query (·.staticFieldAddress owner field)
    assign address field.type v
    releaseValue v
  | .ldthis =>
    let f ← currentFrame
    match f.receiver with
    | some v => push v
    | none => throw .noInstance
  | .ldelem =>
    let array ← pop
    let index ← pop
    let (address, element) ← query fun m => do m.elementAddress array (← m.readIndex index)
    push (← load element address)
    releaseValue array
  | .stelem =>
    let array ← pop
    let index ← pop
    let v ← pop
    let (address, element) ← query fun m => do m.elementAddress array (← m.readIndex index)
    assign address element v
    releaseValue v
    releaseValue array
  | .ldflda =>
    let pointee ← popToken i.op
    let receiver ← pop
    let (_, field) ← query (·.fieldAt operand false)
    let target ← query (·.fieldAddress receiver field)
    push (.pointer pointee target)
    releaseValue receiver
  | .ldsflda =>
    let pointee ← popToken i.op
    let (owner, field) ← query (·.fieldAt operand true)
    let target ← query (·.staticFieldAddress owner field)
    push (.pointer pointee target)
  | .ldloca => loadSlotAddress i.op (·.getLocal operand)
  | .ldarga => loadSlotAddress i.op (·.getArgument operand)
  | .ldelema =>
    let array ← pop
    let index ← pop
    let pointee ← popToken i.op
    let (target, _) ← query fun m => do m.elementAddress array (← m.readIndex index)
    push (.pointer pointee target)
    releaseValue array
  | .ldind =>
    let pointer ← pop
    let target ← query fun _ => pointerTarget pointer
    let type ← query (·.typeOperand operand)
    push (← load type target)
    releaseValue pointer
  | .stind =>
    let pointer ← pop
    let v ← pop
    let target ← query fun _ => pointerTarget pointer
    let type ← query (·.typeOperand operand)
    assign target type v
    releaseValue v
    releaseValue pointer
  | .ldtype => push (← makeScalar (.ofInt .int operand.toInt))
  | .conv =>
    let v ← pop
    let type ← query (·.typeOperand operand)
    push (← convert v type)
    releaseValue v
  | .newarr => newArray operand
  | .nop | .newobj | .call | .ret | .brtrue | .brfalse | .br => pure ()

/-- One instruction of a body of the given length. -/
def step (length : Nat) (i : Instruction) : Exec Flow := do
  match i.op with
  | .ret => return .finish
  | .br => return .jump (← query fun _ => branchTarget i.operand length)
  | .brtrue => branchIf true i.operand length
  | .brfalse => branchIf false i.operand length
  | .call => beginCall i.operand
  | .newobj => beginConstruction i.operand
  | _ =>
    perform i
    return .next

end Exec

end ManagedVm
