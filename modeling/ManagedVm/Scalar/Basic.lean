import ManagedVm.LittleEndian
import ManagedVm.Scalar.Kind

/-!
# Scalars

A scalar is a primitive value taken out of memory: a word, a floating-point pattern or a truth
value. In memory it is its bytes, least significant first; a truth value is one byte, of which any
but zero means true.
-/

namespace ManagedVm

/-- A primitive value. -/
inductive Scalar
  | word (kind : WordKind) (bits : BitVec kind.width)
  | floating (precision : Precision) (bits : Floating.Pattern precision)
  | bool (value : Bool)
  deriving DecidableEq

namespace Scalar

instance : Inhabited Scalar := ⟨.bool false⟩

/-- The kind of the value. -/
def kind : Scalar → Kind
  | word k _ => .word k
  | floating p _ => .floating p
  | bool _ => .bool

/-- A word given by a number, of which the bits that do not fit are dropped. -/
def ofInt (k : WordKind) (i : Int) : Scalar := .word k (.ofInt k.width i)

/-- The bytes of the value. -/
def encode : Scalar → List UInt8
  | word k bits => LittleEndian.encode k.size bits.toNat
  | floating p bits => LittleEndian.encode (Kind.floating p).size bits.toNat
  | bool b => [if b then 1 else 0]

/-- The value of a kind that a run of bytes starts with, unless the run is too short. -/
def decode? (kind : Kind) (bytes : List UInt8) : Option Scalar :=
  if bytes.length < kind.size then
    none
  else
    let n := LittleEndian.decode (bytes.take kind.size)
    some <| match kind with
      | .word k => .word k (.ofNat k.width n)
      | .floating p => .floating p (.ofNat p.width n)
      | .bool => .bool (n ≠ 0)

@[simp] theorem length_encode (s : Scalar) : s.encode.length = s.kind.size := by
  cases s <;> simp [encode, kind, Kind.size]

/-- A value reads back from its bytes. -/
theorem decode?_encode (s : Scalar) : decode? s.kind s.encode = some s := by
  cases s with
  | word k bits =>
    have fits : bits.toNat < 256 ^ k.size := by
      have lt : bits.toNat < 2 ^ (8 * k.size) := bits.isLt
      rwa [Nat.pow_mul] at lt
    simp [decode?, encode, kind, Kind.size, LittleEndian.decode_encode, Nat.mod_eq_of_lt fits]
  | floating p bits =>
    have fits : bits.toNat < 256 ^ (Kind.floating p).size := by
      have := bits.isLt
      cases p <;> exact this
    simp [decode?, encode, kind, LittleEndian.decode_encode, Nat.mod_eq_of_lt fits]
  | bool b => cases b <;> rfl

end Scalar

end ManagedVm
