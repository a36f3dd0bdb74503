import ManagedVm.Naturals

/-!
# Binary floating-point formats

A floating-point number is a bit pattern of one of two widths. `unpack` says what a pattern means,
as a sign, a whole significand and a power of two, and `round` is the one place where precision is
lost: it finds the pattern nearest to an exact value `m · 2^e`, ties going to the even pattern, and
overflow to infinity. Everything else in `Floating` is exact arithmetic between the two.
-/

namespace ManagedVm

open scoped Naturals

/-- The two widths of floating-point numbers. -/
inductive Precision
  | single
  | double
  deriving DecidableEq, Inhabited, Repr

namespace Precision

/-- Bits of the fraction, the leading one of a normal number not counted. -/
def fractionBits : Precision → Nat
  | single => 23
  | double => 52

/-- Bits of the biased exponent. -/
def exponentBits : Precision → Nat
  | single => 8
  | double => 11

/-- Bits of a pattern: sign, exponent, fraction. -/
def width : Precision → Nat
  | single => 32
  | double => 64

/-- The power of two of the last bit of the smallest numbers. -/
def minExponent : Precision → Int
  | single => -149
  | double => -1074

end Precision

namespace Floating

/-- A bit pattern of the given width. -/
abbrev Pattern (p : Precision) := BitVec p.width

/-- What a pattern means. -/
inductive Number
  /-- No number. -/
  | nan
  /-- An infinity. -/
  | infinite (negative : Bool)
  /-- The number `± significand · 2^exponent`; a zero keeps its sign. -/
  | finite (negative : Bool) (significand : Nat) (exponent : Int)
  deriving DecidableEq, Inhabited

variable {p : Precision}

/-- The meaning of a pattern. -/
def unpack (x : Pattern p) : Number :=
  let fraction := x.toNat % 2 ^ p.fractionBits
  let biased := x.toNat / 2 ^ p.fractionBits % 2 ^ p.exponentBits
  if biased = 2 ^ p.exponentBits - 1 then
    if fraction = 0 then .infinite x.msb else .nan
  else if biased = 0 then
    .finite x.msb fraction p.minExponent
  else
    .finite x.msb (2 ^ p.fractionBits + fraction) (p.minExponent + (biased - 1 : Nat))

/-- The pattern of the positive infinity, as a number; every finite magnitude is below it. -/
def infinityMagnitude (p : Precision) : Nat :=
  (2 ^ p.exponentBits - 1) * 2 ^ p.fractionBits

/-- The pattern with a sign bit and the remaining bits. -/
def ofMagnitude (p : Precision) (negative : Bool) (magnitude : Nat) : Pattern p :=
  .ofNat p.width (magnitude + if negative then 2 ^ (p.width - 1) else 0)

/-- An infinity. -/
def infinity (p : Precision) (negative : Bool) : Pattern p :=
  ofMagnitude p negative (infinityMagnitude p)

/-- The pattern that operations without a result give. -/
def nan (p : Precision) : Pattern p :=
  ofMagnitude p false (infinityMagnitude p + 2 ^ (p.fractionBits - 1))

/-- The pattern is no number. -/
def isNaN (x : Pattern p) : Bool := unpack x == .nan

/-- `n / 2^places`, rounded to the nearest whole number, a tie to the even one. -/
def roundShift (n places : Nat) : Nat :=
  let quotient := n >>> places
  let rest := n % 2 ^ places
  if 2 ^ places < 2 * rest ∨ (2 * rest = 2 ^ places ∧ quotient % 2 = 1) then
    quotient + 1
  else
    quotient

/-- The pattern nearest to `± m · 2^e`, a tie going to the even pattern.

The last bit kept has the power `quantum`: as high as `m` needs, but not below the format's least.
Numbering the patterns by `quantum` and kept bits is the same as writing exponent and fraction side
by side, so a carry out of the fraction lands in the exponent, and out of the last exponent at
infinity. -/
def round (p : Precision) (negative : Bool) (m : Nat) (e : Int) : Pattern p :=
  if m = 0 then
    ofMagnitude p negative 0
  else
    let quantum := max (e + m.log2 - p.fractionBits) p.minExponent
    let kept :=
      if quantum ≤ e then m <<< (e - quantum).toNat else roundShift m (quantum - e).toNat
    let magnitude := (quantum - p.minExponent).toNat * 2 ^ p.fractionBits + kept
    ofMagnitude p negative (min magnitude (infinityMagnitude p))

end Floating

end ManagedVm
