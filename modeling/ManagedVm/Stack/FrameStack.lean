import ManagedVm.Stack.Frame

/-!
# The frame stack

The frames of the running invocations lie one behind the other in one arena, each starting where the
one before it ends. Only the innermost frame hands out scratch, so it can be extended in place
when its bytes run out.

As on the heap, whatever writes to the arena is split into a check and a change that cannot fail.
-/

namespace ManagedVm

/-- The frames and the arena behind them. -/
structure FrameStack where
  arena : Arena
  /-- The frames, innermost first. -/
  frames : List Frame := []
  /-- Bytes that the arena never exceeds. -/
  limit : UInt64
  deriving DecidableEq

namespace FrameStack

/-- A stack without frames. -/
def create (initialSize : Nat) (limit : UInt64) : FrameStack :=
  { arena := .zeroed (min initialSize limit.toNat), limit }

instance : Inhabited FrameStack := ⟨create 0 0⟩

/-- The number of frames. -/
def depth (s : FrameStack) : Nat := s.frames.length

/-- The byte behind the innermost frame. -/
def top (s : FrameStack) : Nat :=
  match s.frames with
  | [] => 0
  | f :: _ => f.stop

/-- The innermost frame. -/
def current (s : FrameStack) : Except Error Frame :=
  match s.frames with
  | [] => .error .frameUnderflow
  | f :: _ => .ok f

/-- The stack with another innermost frame. -/
def setCurrent (s : FrameStack) (f : Frame) : FrameStack := { s with frames := f :: s.frames.tail }

variable [Build]

/-- The size the arena needs so that `stop` bytes fit; doubling keeps growth rare. The limit is a
word, so it is here that a stop is met which is none: to compute it has stopped the program. -/
def reserve (s : FrameStack) (stop : Nat) : Except Error Nat :=
  if s.limit.toNat < stop then
    .error (if Size.overflows stop then .panic else .stackOverflow stop s.limit.toNat)
  else if stop ≤ s.arena.size then .ok s.arena.size
  else .ok (min (max (s.arena.size * 2) stop) s.limit.toNat)

/-! ## Frames -/

/-- Puts a frame of the layout on the stack, all its bytes zero, in an arena of the given size. -/
def enter (s : FrameStack) (layout : FrameLayout) (arenaSize : Nat) : FrameStack :=
  let f := layout.frameAt s.top
  { s with arena := (s.arena.resize arenaSize).clear f.base f.stop, frames := f :: s.frames }

/-- The size the arena needs for a frame of the layout. -/
def planFrame (s : FrameStack) (layout : FrameLayout) : Except Error Nat := do
  let f := layout.frameAt s.top
  let arenaSize ← s.reserve f.stop
  if Size.isInverted f.base f.stop then throw .panic else return arenaSize

/-- Puts a frame of the layout on the stack, if the arena may hold it. -/
def pushFrame (s : FrameStack) (layout : FrameLayout) : Except Error FrameStack := do
  return s.enter layout (← s.planFrame layout)

/-- Takes the innermost frame off. -/
def popFrame (s : FrameStack) : Except Error (Frame × FrameStack) :=
  match s.frames with
  | [] => .error .frameUnderflow
  | f :: rest => .ok (f, { s with frames := rest })

/-! ## Values of the innermost frame -/

/-- Pushes a value. -/
def push (s : FrameStack) (v : Value) : Except Error FrameStack := do
  return s.setCurrent (← (← s.current).push v)

/-- Pops a value. -/
def pop (s : FrameStack) : Except Error (Value × FrameStack) := do
  let (v, f) ← (← s.current).pop
  return (v, s.setCurrent f)

/-! ## Scratch of the innermost frame -/

/-- What handing out scratch will do: where the bytes are, where the frame then ends, and how large
the arena is. -/
structure Carving where
  frame : Frame
  start : Nat
  stop : Nat
  arenaSize : Nat

/-- The frame's bytes do not suffice. -/
def Carving.outgrows (c : Carving) : Bool := c.frame.stop < c.stop

/-- Where the next `count` bytes of scratch are. -/
def planCarving (s : FrameStack) (count : Nat) : Except Error Carving := do
  let f ← s.current
  let stop := Size.word (f.cursor + count)
  let arenaSize ← if f.stop < stop then s.reserve stop else pure s.arena.size
  return { frame := f, start := f.cursor, stop, arenaSize }

/-- Hands out scratch as planned. A frame that is too small is extended by zeros. -/
def carve (s : FrameStack) (c : Carving) : FrameStack :=
  if c.outgrows then
    { s with
      arena := (s.arena.resize c.arenaSize).clear c.frame.stop c.stop
      frames := { c.frame with cursor := c.stop, stop := c.stop, grown := true } :: s.frames.tail }
  else
    s.setCurrent { c.frame with cursor := c.stop }

/-- Hands out `count` bytes of scratch. -/
def allocate (s : FrameStack) (count : Nat) : Except Error (Address × FrameStack) := do
  let c ← s.planCarving count
  return (.stack c.start, s.carve c)

/-- Empties a frame's evaluation stack and takes its scratch back, zeroing it. -/
def rewind (s : FrameStack) (f : Frame) : FrameStack :=
  { s with
    arena := s.arena.clear f.scratch f.cursor
    frames := { f with cursor := f.scratch, values := [] } :: s.frames.tail }

/-- Empties the innermost frame's evaluation stack and takes its scratch back. The values that were
on the stack are returned, topmost first. -/
def resetScratch (s : FrameStack) : Except Error (List Value × FrameStack) := do
  let f ← s.current
  if Size.isInverted f.scratch f.cursor then
    throw .panic
  return (f.values, s.rewind f)

/-! ## Bytes -/

/-- The bytes belong to the frames. -/
def inRange (s : FrameStack) (address : Address) (length : Nat) : Bool :=
  address.space == .stack && address.offset + length ≤ s.top

/-- The error of bytes that do not belong to the frames. As on the heap, only those are refused whose
end lies above the top. -/
def rangeError (s : FrameStack) (address : Address) (length : Nat) : Error :=
  let stop := address.offset + length
  if address.space ≠ .stack ∨ (¬ Size.overflows stop ∧ s.top < Size.word stop) then
    .heap (.invalidRange address length)
  else
    .panic

/-- The bytes at an address. -/
def bytes (s : FrameStack) (address : Address) (length : Nat) : Except Error (List UInt8) :=
  if s.inRange address length then .ok (s.arena.read address.offset length)
  else .error (s.rangeError address length)

/-- Writes bytes at an address that is known to be in range. -/
def poke (s : FrameStack) (address : Address) (data : List UInt8) : FrameStack :=
  { s with arena := s.arena.write address.offset data }

/-- Writes bytes at an address. -/
def write (s : FrameStack) (address : Address) (data : List UInt8) : Except Error FrameStack :=
  if s.inRange address data.length then .ok (s.poke address data)
  else .error (s.rangeError address data.length)

end FrameStack

end ManagedVm
