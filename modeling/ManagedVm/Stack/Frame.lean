import ManagedVm.Error
import ManagedVm.Naturals

/-!
# Frames

A frame is one invocation's window into the stack arena. Its locals come first, then its arguments,
then scratch, which is handed out by a cursor that only moves forward until the frame is left or
rewound. Beside the bytes a frame has its evaluation stack, a list of handles.
-/

namespace ManagedVm

open scoped Naturals

/-- A slot of a frame: a local or an argument. -/
structure Binding where
  type : TypeId
  address : Address
  deriving DecidableEq, Inhabited

/-- A window into the stack arena. -/
structure Frame where
  /-- The method that runs in the frame; the host's frame has none. -/
  method : Option Nat := none
  /-- The first byte. -/
  base : Nat
  /-- The byte behind the last one. -/
  stop : Nat
  /-- The first byte of scratch, behind the slots. -/
  scratch : Nat
  /-- The first byte of scratch not handed out. -/
  cursor : Nat
  /-- The greatest number of values the evaluation stack may hold. -/
  maxDepth : Nat
  /-- The instance the method was invoked on. -/
  receiver : Option Value := none
  locals : List Binding := []
  arguments : List Binding := []
  /-- The evaluation stack, topmost value first. -/
  values : List Value := []
  /-- The frame has been extended past its first size. -/
  grown : Bool := false
  deriving DecidableEq, Inhabited

namespace Frame

/-- The number of values on the evaluation stack. -/
def depth (f : Frame) : Nat := f.values.length

/-- Bytes of the frame. -/
def size (f : Frame) : Nat := f.stop - f.base

/-- Bytes of the frame up to the cursor. -/
def used (f : Frame) : Nat := f.cursor - f.base

/-- Pushes a value, unless the evaluation stack is full. -/
def push (f : Frame) (v : Value) : Except Error Frame :=
  if f.maxDepth ≤ f.depth then .error (.evalStackOverflow f.maxDepth)
  else .ok { f with values := v :: f.values }

/-- Pops a value, unless the evaluation stack is empty. -/
def pop (f : Frame) : Except Error (Value × Frame) :=
  match f.values with
  | [] => .error .evalStackUnderflow
  | v :: rest => .ok (v, { f with values := rest })

/-- The entry of a list that a signed index names. -/
def slotAt? (slots : List Binding) (index : Int32) : Option Binding :=
  if index < 0 then none else slots[index.toInt.toNat]?

/-- A local. -/
def getLocal (f : Frame) (index : Int32) : Except Error Binding :=
  match slotAt? f.locals index with
  | some b => .ok b
  | none => .error (.unknownLocal index)

/-- An argument. -/
def getArgument (f : Frame) (index : Int32) : Except Error Binding :=
  match slotAt? f.arguments index with
  | some b => .ok b
  | none => .error (.unknownArgument index)

end Frame

/-- What a new frame needs. -/
structure FrameLayout where
  method : Option Nat := none
  /-- Bytes of the frame, slots included. -/
  totalSize : Nat := 0
  maxDepth : Nat := 0
  receiver : Option Value := none
  /-- Type and size of each local. -/
  locals : List (TypeId × Nat) := []
  /-- Type and size of each argument. -/
  arguments : List (TypeId × Nat) := []
  deriving DecidableEq, Inhabited

namespace FrameLayout

/-- Bytes of the slots. -/
def slotBytes (l : FrameLayout) : Nat := ((l.locals ++ l.arguments).map (·.2)).sum

variable [Build]

/-- Slots side by side from a byte on, and the byte behind them. -/
def bind (start : Nat) : List (TypeId × Nat) → List Binding × Nat
  | [] => ([], start)
  | (type, size) :: rest =>
    let (bindings, stop) := bind (Size.word (start + size)) rest
    (⟨type, .stack start⟩ :: bindings, stop)

/-- The frame of the layout from a byte on. It is at least as large as its slots. -/
def frameAt (l : FrameLayout) (base : Nat) : Frame :=
  let (locals, afterLocals) := bind base l.locals
  let (arguments, scratch) := bind afterLocals l.arguments
  { method := l.method
    base
    stop := Size.word (base + max l.totalSize (Size.word l.slotBytes))
    scratch
    cursor := scratch
    maxDepth := l.maxDepth
    receiver := l.receiver
    locals
    arguments }

end FrameLayout

end ManagedVm
