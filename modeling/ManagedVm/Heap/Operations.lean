import ManagedVm.Heap.Basic
import ManagedVm.Naturals

/-!
# Operations on the heap

An allocation takes the first hole that is large enough, or else the space behind the last region,
growing the arena if it must and may. Freeing an object makes its region a hole, joined with the
holes it touches; a hole at the top goes back to the space behind.

Each operation is split into a check that reads the heap and a change that cannot fail (`plan` and
`occupy`, `get` and `vacate`, `inRange` and `poke`), so that a heap is only ever changed after every
check has passed.
-/

namespace ManagedVm.Heap

open scoped Naturals

variable [Build]

/-- A heap with the given settings, which must make sense. -/
def create (settings : Settings) : Except Error Heap :=
  match settings.fault? with
  | some fault => .error (.invalidSettings fault)
  | none => .ok { settings, arena := .zeroed settings.initialSize }

/-! ## Holes -/

/-- Takes `length` bytes from the front of the first hole that has them. -/
def takeHole? (length : Nat) : List Hole → Option (Nat × List Hole)
  | [] => none
  | hole :: rest =>
    if length ≤ hole.size then
      let left : Hole := ⟨hole.start + length, hole.size - length⟩
      some (hole.start, if left.size = 0 then rest else left :: rest)
    else
      (takeHole? length rest).map fun (start, rest) => (start, hole :: rest)

/-- Puts a hole before others, as one with the first of them if the two touch. -/
def joinHole (hole : Hole) : List Hole → List Hole
  | [] => [hole]
  | next :: rest =>
    if hole.stop = next.start then ⟨hole.start, hole.size + next.size⟩ :: rest
    else hole :: next :: rest

/-- Puts a hole in its place among others, as one with those that it touches there. -/
def insertHole (hole : Hole) : List Hole → List Hole
  | [] => [hole]
  | next :: rest =>
    if hole.start ≤ next.start then joinHole hole (next :: rest)
    else if rest.head?.any (·.start < hole.start) then next :: insertHole hole rest
    else joinHole next (insertHole hole rest)

/-- The top and the holes once a last hole that ends at the top has been given back. -/
def giveBack (top : Nat) (holes : List Hole) : Nat × List Hole :=
  match holes.getLast? with
  | some last => if last.stop = top then (last.start, holes.dropLast) else (top, holes)
  | none => (top, holes)

/-! ## Objects and tombstones -/

/-- Puts an object in its place by its start. -/
def insertObject (o : Object) : List Object → List Object
  | [] => [o]
  | next :: rest => if o.start < next.start then o :: next :: rest else next :: insertObject o rest

/-- The objects that stay when one is put at a start. With overflow checks that is all of them;
without, a region can be empty, and then an object takes the entry of the one that starts there. -/
def keptBeside (start : Nat) (objects : List Object) : List Object :=
  match Build.overflow with
  | .stops => objects
  | .wraps => objects.filter (·.start ≠ start)

/-- Puts an offset in its place among others, once. -/
def insertTombstone (offset : Nat) : List Nat → List Nat
  | [] => [offset]
  | next :: rest =>
    if offset < next then offset :: next :: rest
    else if offset = next then next :: rest
    else next :: insertTombstone offset rest

/-- The live object that starts at an offset. -/
def objectAt? (h : Heap) (offset : Nat) : Option Object :=
  h.objects.find? (·.start == offset)

/-- A null address, or one of the stack. -/
def isForeign (address : Address) : Bool := address.space != .heap || address.isNull

/-- The live object that starts at the address. -/
def get (h : Heap) (address : Address) : Except Error Object :=
  if isForeign address then
    .error (.notAllocated address)
  else
    match h.objectAt? address.offset with
    | some o => .ok o
    | none =>
      if h.tombstones.contains address.offset then .error (.useAfterFree address)
      else .error (.notAllocated address)

/-- The live object that the address points to or into. -/
def containing? (h : Heap) (address : Address) : Option Object :=
  if isForeign address then
    none
  else
    let offset := address.offset
    match (h.objects.filter (·.start ≤ offset)).getLast? with
    | some o =>
      if offset = o.start ∨ offset < Size.word (o.start + o.size) then some o else none
    | none => none

/-- A live object starts at the offset of the heap address. -/
def isLive (h : Heap) (address : Address) : Bool :=
  address.space == .heap && (h.objectAt? address.offset).isSome

/-! ## Allocation -/

/-- The size to which the arena grows so that `stop` bytes fit. -/
def grownSize (h : Heap) (stop : Nat) : Nat :=
  if stop ≤ h.arena.size then
    h.arena.size
  else
    let product := Floating.mul (Floating.ofInt .double h.arena.size) h.settings.growth
    let grown := (Floating.truncate 0 (UInt64.size - 1) product).toNat
    min (max grown stop) h.settings.maxSize.toNat

/-- Where an allocation will go, and what it leaves of the heap's bookkeeping. -/
structure Plan where
  start : Nat
  holes : List Hole
  top : Nat
  arenaSize : Nat

/-- The place for an object of a given size: the first hole that has room, or else the top. -/
def plan (h : Heap) (size : Nat) : Except Error Plan :=
  let length := reserved size
  if Size.overflows (padded size) then
    .error .panic
  else
    match takeHole? length h.holes with
    | some (start, holes) => .ok { start, holes, top := h.top, arenaSize := h.arena.size }
    | none =>
      let stop := Size.word (h.top + length)
      if Size.overflows (h.top + length) then
        .error .panic
      else if h.settings.maxSize.toNat < stop then
        .error (.outOfMemory size h.settings.maxSize.toNat)
      else if Size.isInverted h.top stop then
        .error .panic
      else
        .ok { start := h.top, holes := h.holes, top := stop, arenaSize := h.grownSize stop }

/-- Puts an object where it was planned, with all bytes of its region zero. -/
def occupy (h : Heap) (p : Plan) (size : Nat) (type : TypeId) (kind : ObjectKind) : Heap :=
  { h with
    arena := (h.arena.resize p.arenaSize).clear p.start (p.start + reserved size)
    top := p.top
    holes := p.holes
    objects :=
      insertObject { address := .heap p.start, type, size, kind } (keptBeside p.start h.objects)
    tombstones := h.tombstones.filter (· ≠ p.start)
    allocations := h.allocations + 1 }

/-- A new object with all bytes zero. -/
def allocate (h : Heap) (size : Nat) (type : TypeId) (kind : ObjectKind) :
    Except Error (Address × Heap) := do
  let p ← h.plan size
  return (.heap p.start, h.occupy p size type kind)

/-- The heap without a live object, whose region becomes a hole. -/
def vacate (h : Heap) (o : Object) : Heap :=
  let (top, holes) := giveBack h.top (insertHole ⟨o.start, reserved o.size⟩ h.holes)
  { h with
    top
    holes
    objects := h.objects.filter (·.start ≠ o.start)
    tombstones := insertTombstone o.start h.tombstones
    frees := h.frees + 1 }

/-- Frees the object that starts at the address. -/
def free (h : Heap) (address : Address) : Except Error (Object × Heap) := do
  let o ← h.get address
  return (o, h.vacate o)

/-! ## Bytes -/

/-- The bytes lie behind offset zero, below the top and in the arena. Which objects they belong to
does not matter. -/
def inRange (h : Heap) (address : Address) (length : Nat) : Bool :=
  address.space == .heap && alignment ≤ address.offset && address.offset + length ≤ h.top &&
    address.offset + length ≤ h.arena.size

/-- The error of bytes that are not in range. Only those are refused whose end lies above the top;
otherwise the program stops, because their end is no word, lies before their start or lies outside
the arena. -/
def rangeError (h : Heap) (address : Address) (length : Nat) : Error :=
  let stop := address.offset + length
  if address.space ≠ .heap ∨ address.offset < alignment ∨
      (¬ Size.overflows stop ∧ h.top < Size.word stop) then
    .invalidRange address length
  else
    .panic

/-- The bytes at an address. -/
def bytes (h : Heap) (address : Address) (length : Nat) : Except Error (List UInt8) :=
  if h.inRange address length then .ok (h.arena.read address.offset length)
  else .error (h.rangeError address length)

/-- Writes bytes at an address that is known to be in range. -/
def poke (h : Heap) (address : Address) (data : List UInt8) : Heap :=
  { h with arena := h.arena.write address.offset data }

/-- Writes bytes at an address. -/
def write (h : Heap) (address : Address) (data : List UInt8) : Except Error Heap :=
  if h.inRange address data.length then .ok (h.poke address data)
  else .error (h.rangeError address data.length)

/-- Bytes of the live objects together. -/
def liveBytes (h : Heap) : Nat := Size.word (h.objects.map (·.size)).sum

end ManagedVm.Heap
