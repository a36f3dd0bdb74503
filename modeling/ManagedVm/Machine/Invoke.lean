import ManagedVm.Machine.NativeCall
import ManagedVm.Machine.Sizing
import ManagedVm.Machine.Step
import ManagedVm.Naturals

/-!
# Invocations

An invocation pushes a frame, binds its arguments, runs the body and moves the result to the frame
below. The frame is popped on every path, and what only it referred to is released when all went
well.

A body can run for ever, so `Run` has a third outcome beside a result and an error: none at all,
because the number of steps that a single frame may take was used up. Nothing else is bounded by
that number. In particular the nesting of invocations is bounded by the machine's own limit on the
call depth, from which the fuel of `invokeNested` is computed.
-/

namespace ManagedVm

open scoped Naturals

/-- Operations that may use up their steps. -/
def Run (α : Type) : Type := Machine → Option (EStateM.Result Error Machine α)

namespace Run

variable {α β : Type}

/-- The steps are used up. -/
def exhausted : Run α := fun _ => none

/-- An operation that needs no steps. -/
@[inline] def ofExec (x : Exec α) : Run α := fun m => some (x m)

/-- An operation whose outcome is looked at, be it a result or an error. -/
@[inline] def attempt (x : Run α) : Run (Except Error α) := fun m =>
  match x m with
  | none => none
  | some (.ok a m) => some (.ok (.ok a) m)
  | some (.error e m) => some (.ok (.error e) m)

instance : Monad Run where
  pure a := fun m => some (.ok a m)
  bind x f := fun m =>
    match x m with
    | none => none
    | some (.ok a m) => f a m
    | some (.error e m) => some (.error e m)

instance : MonadLift Exec Run := ⟨ofExec⟩

end Run

namespace Machine

variable (m : Machine)

/-- A request must fit the method: an instance unless the method is static, one argument for each
parameter, and room for one more invocation. -/
def checkRequest (method : Method) (name : String) (r : Request) : Except Error Unit := do
  if method.isStatic && r.receiver.isSome then
    throw (.unexpectedInstance name)
  if !method.isStatic && r.receiver.isNone then
    throw (.missingInstance name)
  if method.parameters.length ≠ r.arguments.length then
    throw (.argumentCountMismatch name method.parameters.length r.arguments.length)
  if m.settings.maxCallDepth < m.stack.depth then
    throw (.callDepthExceeded m.settings.maxCallDepth)

/-- Types and sizes of the slots of variables. -/
def slotsOf (vars : List Variable) : Except Error (List (TypeId × Nat)) :=
  vars.mapM fun v => do
    let type ← m.declaredType v.type
    return (type, (m.descriptor type).size)

end Machine

namespace Exec

variable [Build]

/-- Finds the method of a request and checks the request. -/
def accept (r : Request) : Exec (Method × String) := do
  let method ← query (·.methodAt r.method)
  let name ← query fun m => .ok (m.qualifiedName method)
  query (·.checkRequest method name r)
  record (.invoking name)
  return (method, name)

/-- Runs a native method. It must return a value exactly if the method is declared to. -/
def invokeNative [Host] (method : Method) (name : String) (r : Request) : Exec (Option Value) := do
  let owner ← query (·.typeName method.owner)
  match ← query fun m => .ok (m.natives.find? owner method.name) with
  | none => throw (.unknownNative owner method.name)
  | some n =>
    if r.arguments.length ≠ n.arity then
      throw (.native name s!"expects {n.arity} arguments, got {r.arguments.length}")
    let result ← runNative n.body r.receiver r.arguments
    let returns ← query (·.returnsValue method)
    if returns && result.isNone then
      throw (.native name "returned nothing from a non-void method")
    if !returns && result.isSome then
      throw (.native name "returned a value from a void method")
    return result

/-- Pushes a frame with the slots of a method, the scratch it was sized for and what its natives may
take. -/
def enterFrame (method : Method) (name : String) (r : Request) : Exec Unit := do
  let (depth, evaluation) ← size r.method
  let reserve ← query (·.nativeReserve r.method)
  let locals ← query (·.slotsOf method.locals)
  let arguments ← query (·.slotsOf method.parameters)
  let slots ← query fun _ => Size.fit .panic ((locals ++ arguments).map (·.2)).sum
  record (.framePlanned name slots evaluation reserve)
  let totalSize ← query fun _ => Size.fit .panic (slots + evaluation + reserve)
  pushFrame
    { method := some r.method
      totalSize
      maxDepth := depth
      receiver := r.receiver
      locals
      arguments }

/-- Stores the arguments in their slots, the first one at `index`. -/
def bindArguments (index : Nat) : List Value → Exec Unit
  | [] => pure ()
  | v :: rest => do
    let b ← query (·.slot (·.getArgument (.ofNat index)))
    store b.address b.type v
    bindArguments (index + 1) rest

/-- The result of a body that has ended: exactly one value on the evaluation stack, or none if the
method returns nothing. -/
def takeResult (method : Method) : Exec (Option Value) := do
  let f ← currentFrame
  let returns ← query (·.returnsValue method)
  match returns, f.depth with
  | false, 0 => return none
  | false, remaining => throw (.voidReturnWithValues remaining)
  | true, 0 => throw .emptyStackOnReturn
  | true, 1 => some <$> pop
  | true, remaining => throw (.stackNotDrained remaining)

/-- The bytes of an inline result, saved before its frame goes away. -/
def capture (result : Option Value) : Exec (Option (Value × List UInt8)) := do
  match result with
  | none => return none
  | some v => if v.isAddress then return some (v, []) else return some (v, ← query (·.valueBytes v))

/-- An inline result with storage in the innermost frame. -/
def rehome (v : Value) (bytes : List UInt8) : Exec Value := do
  match v with
  | .primitive type _ => return .primitive type (← stored)
  | .struct type _ => return .struct type (← stored)
  | v => return v
where
  /-- The bytes in scratch. -/
  stored : Exec Address := do
    let address ← carve bytes.length
    write address bytes
    return address

/-- Pops the frame of an invocation, moves its result to the frame below and releases what only the
popped frame referred to. -/
def leaveFrame (outcome : Except Error (Option (Value × List UInt8))) : Exec (Option Value) := do
  let references ← query fun m => .ok m.frameReferences
  discard popFrame
  let captured ← query fun _ => outcome
  let references ← query fun _ => references
  match captured with
  | none =>
    release references
    return none
  | some (v, bytes) =>
    let v ← rehome v bytes
    pin v
    held (release references)
    return some v
where
  /-- Lets go of the result whatever comes of the release. -/
  held (x : Exec Unit) : Exec Unit := fun m =>
    match x m with
    | .ok a m => (do unpin; return a : Exec Unit) m
    | .error e m => (do unpin; throw e : Exec Unit) m

end Exec

namespace Run

/-- How an invocation is made. -/
abbrev Invoke := Request → Run (Option Value)

variable [Build] (nested : Invoke)

/-- One instruction of a body, the invocation it may ask for included. -/
def step (length : Nat) (i : Instruction) : Run Flow := do
  match ← Exec.step length i with
  | .invoke request pending =>
    let outcome ← attempt (nested request)
    Exec.unpinPending pending
    match outcome with
    | .ok result =>
      Exec.complete result pending
      return .next
    | .error e => throw e
  | flow => return flow
where
  /-- Fails. -/
  throw (e : Error) : Run Flow := ofExec (MonadExcept.throw e)

/-- The error of an instruction, wrapped with its place. It is logged where it arose, not in the
callers. -/
def fail (name : String) (index : Nat) (i : Instruction) (e : Error) : Exec Unit := do
  if !e.isFault then
    Exec.record (.failed name index i e)
  throw (.fault name index i e)

/-- Runs a body from a place on, for at most `steps` instructions. -/
def body (name : String) (code : Array Instruction) (steps index : Nat) : Run Unit :=
  match code[index]?, steps with
  | none, _ => pure ()
  | some _, 0 => exhausted
  | some i, steps + 1 => do
    Exec.record (.executing name index i)
    match ← attempt (step nested code.size i) with
    | .ok (.jump target) => body name code steps target
    | .ok .finish => return ()
    | .ok _ => body name code steps (index + 1)
    | .error e => fail name index i e

/-- Binds the arguments, runs the body and takes the result. -/
def execute (steps : Nat) (method : Method) (name : String) (arguments : List Value) :
    Run (Option (Value × List UInt8)) := do
  Exec.bindArguments 0 arguments
  body nested name method.body steps 0
  Exec.capture (← Exec.takeResult method)

/-- One invocation; those that its body asks for are made by `nested`. -/
def invokeOne [Host] (steps : Nat) (r : Request) : Run (Option Value) := do
  let (method, name) ← Exec.accept r
  if method.isNative then
    Exec.invokeNative method name r
  else
    Exec.enterFrame method name r
    let outcome ← attempt (execute nested steps method name r.arguments)
    Exec.leaveFrame outcome

/-- An invocation, with others nested in it no deeper than `depth`. -/
def invokeNested [Host] (steps : Nat) : (depth : Nat) → Invoke
  | 0 => fun _ => exhausted
  | depth + 1 => invokeOne (invokeNested steps depth) steps

/-- Runs a method and returns its result in the innermost frame. No frame takes more than `steps`
instructions. The nesting never reaches its bound, which lies above the limit on the call depth. -/
def invoke [Host] (steps : Nat) (r : Request) : Run (Option Value) := fun m =>
  invokeNested steps (m.settings.maxCallDepth + 2) r m

end Run

end ManagedVm
