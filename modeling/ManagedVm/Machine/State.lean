import ManagedVm.Heap.Operations
import ManagedVm.Image
import ManagedVm.Journal
import ManagedVm.Natives
import ManagedVm.Stack.FrameStack
import ManagedVm.Types.Table

/-!
# The machine

Everything one program execution owns, and the two ways to work on it: a *query* reads the machine
and may fail, `Exec` may change it. A failing operation of `Exec` still has a final state: what it
did before it failed stays done.

The operations here are those of the heap and the frame stack, lifted to the machine together with
the events they leave in the journal.
-/

namespace ManagedVm

namespace Machine

/-- Sizes and limits of a machine. -/
structure Settings where
  heap : Heap.Settings := {}
  /-- Bytes of the stack arena at the start. -/
  stackSize : Nat := 65536
  /-- Bytes that the stack arena never exceeds. -/
  maxStackSize : UInt64 := 8388608
  /-- Invocations that may be nested. -/
  maxCallDepth : Nat := 256
  /-- Bytes of scratch of the host's frame. -/
  hostScratch : Nat := 1024
  /-- Values that the host's frame may hold. -/
  hostDepth : Nat := 256
  deriving DecidableEq

instance : Inhabited Settings := ⟨{}⟩

end Machine

/-- The state of a program execution. -/
structure Machine where
  image : Image
  types : TypeTable
  settings : Machine.Settings := {}
  heap : Heap
  stack : FrameStack
  /-- The block of static fields of each type that has some. -/
  statics : List (TypeId × Address) := []
  natives : Natives := .standard
  /-- The lines written by the program and not yet taken, oldest first. -/
  output : Array String := #[]
  /-- Values held between frames, newest first. -/
  inFlight : List Value := []
  journal : Journal := {}
  deriving Inhabited

/-- Operations that may change the machine, and may fail. -/
abbrev Exec := EStateM Error Machine

namespace Exec

/-- Reads the machine. -/
@[inline] def query {α : Type} (f : Machine → Except Error α) : Exec α := fun m =>
  match f m with
  | .ok a => .ok a m
  | .error e => .error e m

/-- The operation with another error. -/
@[inline] def mapError {α : Type} (f : Error → Error) (x : Exec α) : Exec α := fun m =>
  match x m with
  | .ok a m => .ok a m
  | .error e m => .error (f e) m

/-- Leaves an event in the journal. -/
def record (e : Event) : Exec Unit := modify fun m => { m with journal := m.journal.record e }

variable [Build]

/-! ## Heap -/

/-- A new object on the heap, with all bytes zero. -/
def allocateObject (size : Nat) (type : TypeId) (kind : ObjectKind) : Exec Address := do
  let p ← query fun m => (m.heap.plan size).mapError .heap
  let before ← query fun m => .ok m.heap.arena.size
  if before < p.arenaSize then
    record (.arenaGrown before p.arenaSize)
  modify fun m => { m with heap := m.heap.occupy p size type kind }
  record (.allocated size (.heap p.start) kind)
  return .heap p.start

/-- Frees an object of the heap. -/
def freeObject (address : Address) : Exec Heap.Object := do
  let (o, heap) ← query fun m => (m.heap.free address).mapError .heap
  modify fun m => { m with heap }
  record (.freed address o.kind)
  return o

/-- Writes bytes to the heap. -/
def writeHeap (address : Address) (data : List UInt8) : Exec Unit := do
  if ← query fun m => .ok (m.heap.inRange address data.length) then
    modify fun m => { m with heap := m.heap.poke address data }
  else
    throw (.heap (← query fun m => .ok (m.heap.rangeError address data.length)))

/-! ## Frame stack -/

/-- The innermost frame. -/
def currentFrame : Exec Frame := query (·.stack.current)

/-- Puts a frame on the stack. -/
def pushFrame (layout : FrameLayout) : Exec Unit := do
  let f ← query fun m => .ok (layout.frameAt m.stack.top)
  let arenaSize ← query (·.stack.planFrame layout)
  let number ← query fun m => .ok m.stack.depth
  modify fun m => { m with stack := m.stack.enter layout arenaSize }
  record (.framePushed number f.size (.stack f.base) f.maxDepth)

/-- Takes the innermost frame off the stack. -/
def popFrame : Exec Frame := do
  let (f, stack) ← query (·.stack.popFrame)
  modify fun m => { m with stack }
  record (.framePopped stack.depth f.used f.size)
  return f

/-- Pushes a value on the innermost frame's evaluation stack. -/
def push (v : Value) : Exec Unit := do
  let stack ← query (·.stack.push v)
  modify fun m => { m with stack }

/-- Pops a value off the innermost frame's evaluation stack. -/
def pop : Exec Value := do
  let (v, stack) ← query (·.stack.pop)
  modify fun m => { m with stack }
  return v

/-- Hands out scratch of the innermost frame. -/
def carve (count : Nat) : Exec Address := do
  let c ← query (·.stack.planCarving count)
  if c.outgrows && !c.frame.grown then
    let depth ← query fun m => .ok m.stack.depth
    record (.frameOutgrown (depth - 1) c.frame.size)
  modify fun m => { m with stack := m.stack.carve c }
  return .stack c.start

/-- Empties the innermost frame's evaluation stack and takes its scratch back. The dropped values
are returned, topmost first. -/
def resetScratch : Exec (List Value) := do
  let f ← currentFrame
  if Size.isInverted f.scratch f.cursor then
    throw .panic
  modify fun m => { m with stack := m.stack.rewind f }
  return f.values

/-- Writes bytes to the stack. -/
def writeStack (address : Address) (data : List UInt8) : Exec Unit := do
  if ← query fun m => .ok (m.stack.inRange address data.length) then
    modify fun m => { m with stack := m.stack.poke address data }
  else
    throw (← query fun m => .ok (m.stack.rangeError address data.length))

/-! ## Values in flight -/

/-- Holds a value until the matching `unpin`. -/
def pin (v : Value) : Exec Unit := modify fun m => { m with inFlight := v :: m.inFlight }

/-- Lets go of the value held last. -/
def unpin : Exec Unit := modify fun m => { m with inFlight := m.inFlight.tail }

end Exec

end ManagedVm
