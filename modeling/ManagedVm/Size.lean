/-!
# Sizes

Sizes, offsets and counts of bytes are words of 64 bits. The functions that add them up compute with
naturals and say by the definitions here what becomes of a result that no word holds. That depends
on how the program is built. With overflow checks it stops; without them the result is cut to a
word, and a range of bytes can then end before it starts.

Every function that adds up sizes is given the build as a parameter.
-/

namespace ManagedVm

/-- What becomes of a result that no word holds. -/
inductive Overflow
  /-- The program stops. -/
  | stops
  /-- The result is cut to a word. -/
  | wraps
  deriving DecidableEq, Inhabited

/-- How the program is built. -/
class Build where
  overflow : Overflow

/-- The build with overflow checks. -/
@[reducible] def Build.checked : Build := ⟨.stops⟩

/-- The build without overflow checks. -/
@[reducible] def Build.unchecked : Build := ⟨.wraps⟩

namespace Size

variable [Build]

/-- Computing the result stops the program. -/
def overflows (n : Nat) : Bool :=
  match Build.overflow with
  | .stops => UInt64.size ≤ n
  | .wraps => false

/-- The word that the program goes on with. -/
def word (n : Nat) : Nat :=
  match Build.overflow with
  | .stops => n
  | .wraps => n % UInt64.size

/-- A range whose ends were computed ends before it starts. With overflow checks there is none. -/
def isInverted (start stop : Nat) : Bool :=
  match Build.overflow with
  | .stops => false
  | .wraps => stop < start

/-- The result as a word, unless computing it stops the program. -/
def fit {ε : Type} (stopped : ε) (n : Nat) : Except ε Nat :=
  if overflows n then .error stopped else .ok (word n)

end Size

end ManagedVm
