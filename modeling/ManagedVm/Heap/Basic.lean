import ManagedVm.Arena
import ManagedVm.Floating.Arithmetic
import ManagedVm.Size
import ManagedVm.Value

/-!
# The heap's data

The heap is an arena with a table of the objects that live in it. Every object occupies a region
that starts at a multiple of eight and is a multiple of eight long; offset zero stays free, so that
null is never the address of an object. Below `top` each byte belongs to a live object's region or
to a hole; above it nothing has been handed out. Of an object that was freed the start is
remembered, to tell a dangling address from one that was never handed out.
-/

namespace ManagedVm

/-- What an object on the heap is. -/
inductive ObjectKind
  /-- Text, behind its length. -/
  | string
  /-- Elements in a row, behind their number. -/
  | array (element : TypeId) (length : Nat)
  /-- An instance of a class. -/
  | object
  /-- The static fields of a type. -/
  | statics
  deriving DecidableEq, Inhabited

/-- The name of the kind in log lines. -/
def ObjectKind.text : ObjectKind → String
  | string => "String"
  | array element length =>
    s!"Array \x7b element: TypeId({element.index}), length: {length} \x7d"
  | object => "Instance"
  | statics => "Statics"

namespace Heap

/-- How large the heap is and may become. -/
structure Settings where
  /-- Bytes of the arena at the start. -/
  initialSize : Nat := 65536
  /-- Bytes that the arena never exceeds. -/
  maxSize : UInt64 := 268435456
  /-- Factor by which the arena grows, in double precision. -/
  growth : Floating.Pattern .double := Floating.ofInt .double 2
  deriving DecidableEq

instance : Inhabited Settings := ⟨{}⟩

/-- What is wrong with settings. -/
inductive SettingsFault
  | zeroSize
  | initialAboveMax
  | growthTooSmall
  deriving DecidableEq, Inhabited, Repr

/-- The text of the fault. -/
def SettingsFault.message : SettingsFault → String
  | zeroSize => "Sizes must be > 0"
  | initialAboveMax => "initial_size must not exceed max_size"
  | growthTooSmall => "growth_factor must be > 1.0"

/-- Settings must give a positive size within the limit, and a factor above one. -/
def Settings.fault? (s : Settings) : Option SettingsFault :=
  if s.initialSize = 0 ∨ s.maxSize.toNat = 0 then
    some .zeroSize
  else if s.maxSize.toNat < s.initialSize then
    some .initialAboveMax
  else if Floating.compare? s.growth (Floating.ofInt .double 1) = some .gt then
    none
  else
    some .growthTooSmall

/-- Why a heap operation failed. -/
inductive Error
  /-- No object ever started at the address. -/
  | notAllocated (address : Address)
  /-- The object that started at the address has been freed. -/
  | useAfterFree (address : Address)
  | outOfMemory (requested limit : Nat)
  /-- Bytes outside the part of the arena that is in use. -/
  | invalidRange (address : Address) (length : Nat)
  | invalidSettings (fault : SettingsFault)
  /-- The program stops: no word holds an offset, or a range of bytes is not one of the arena. -/
  | panic
  deriving DecidableEq, Inhabited, Repr

/-- The text of the error. -/
def Error.message : Error → String
  | notAllocated address => s!"address {address.text} was never allocated"
  | useAfterFree address => s!"address {address.text} has already been freed"
  | outOfMemory requested limit =>
    s!"heap exhausted: cannot allocate {requested} bytes (limit {limit})"
  | invalidRange address length =>
    s!"access of {length} bytes at {address.text} is out of range"
  | invalidSettings fault => s!"invalid heap settings: {fault.message}"
  | panic => "the program stopped"

/-- What is known of a live object. -/
structure Object where
  address : Address
  type : TypeId
  /-- Bytes asked for; the region may be a little longer. -/
  size : Nat
  kind : ObjectKind
  deriving DecidableEq, Inhabited

/-- The offset at which the object starts. -/
def Object.start (o : Object) : Nat := o.address.offset

/-- A free region below the top. -/
structure Hole where
  start : Nat
  size : Nat
  deriving DecidableEq, Inhabited

/-- The offset behind the hole. -/
def Hole.stop (h : Hole) : Nat := h.start + h.size

/-- Every region starts at a multiple of this and is a multiple of it long. -/
def alignment : Nat := 8

/-- The least number of bytes that holds the region of an object of a given size, before it is cut to
a multiple of the alignment. -/
def padded (size : Nat) : Nat := max size 1 + (alignment - 1)

/-- Bytes of the region of an object of a given size. -/
def reserved [Build] (size : Nat) : Nat := Size.word (padded size) / alignment * alignment

end Heap

/-- The heap. -/
structure Heap where
  settings : Heap.Settings := {}
  arena : Arena
  /-- The offset behind the last region. -/
  top : Nat := Heap.alignment
  /-- The live objects, by increasing start. -/
  objects : List Heap.Object := []
  /-- The free regions below the top, by increasing start; no two touch. -/
  holes : List Heap.Hole := []
  /-- The starts of freed objects at which none has started since, by increasing offset. -/
  tombstones : List Nat := []
  /-- Allocations made so far. -/
  allocations : Nat := 0
  /-- Objects freed so far. -/
  frees : Nat := 0
  deriving DecidableEq, Inhabited

end ManagedVm
