import ManagedVm.Floating.Format
import ManagedVm.Naturals

/-!
# The shortest decimal of a floating-point number

A finite number is written with the fewest digits that read back to it: of all decimals in the
interval of reals that round to the number, one on the coarsest grid `10^k`, and of two on that grid
the nearer. The interval's ends belong to it when the significand is even, because ties round to
even. All tests are exact: the number and the ends of its interval are fractions over one
denominator.

The layout is decided by `Decimal.text` alone: positional, whatever the magnitude, with no fraction
part for a whole number.
-/

namespace ManagedVm.Floating

open scoped Naturals

/-- The decimal `digits · 10^exponent`. -/
structure Decimal where
  digits : Nat
  exponent : Int
  deriving DecidableEq, Inhabited

namespace Decimal

/-- The positional text: zeros are added up to the point, before or after the digits. -/
def text (d : Decimal) : String :=
  let digits := Nat.toDigits 10 d.digits
  if 0 ≤ d.exponent then
    String.ofList (digits ++ List.replicate d.exponent.toNat '0')
  else
    let places := (-d.exponent).toNat
    if digits.length ≤ places then
      String.ofList ('0' :: '.' :: List.replicate (places - digits.length) '0' ++ digits)
    else
      let whole := digits.length - places
      String.ofList (digits.take whole ++ '.' :: digits.drop whole)

end Decimal

/-- The reals that round to one number: those between `low` and `high` over `den`, with the number
itself at `mid`. -/
structure Interval where
  low : Nat
  mid : Nat
  high : Nat
  den : Nat
  /-- The ends belong to the interval. -/
  closed : Bool

namespace Interval

/-- The interval of `m · 2^e`. The neighbour below is only half as far when `m` is the least
significand of its power of two. -/
def ofNumber (p : Precision) (m : Nat) (e : Int) : Interval :=
  let scale := 2 ^ (e - 2).toNat
  let below := if m = 2 ^ p.fractionBits ∧ p.minExponent < e then 1 else 2
  { low := (4 * m - below) * scale
    mid := 4 * m * scale
    high := (4 * m + 2) * scale
    den := 2 ^ (2 - e).toNat
    closed := m % 2 = 0 }

/-- The decimal `c · 10^k` lies in the interval. -/
def contains (i : Interval) (c : Nat) (k : Int) : Bool :=
  let point := c * 10 ^ k.toNat * i.den
  let unit := 10 ^ (-k).toNat
  if i.closed then
    i.low * unit ≤ point && point ≤ i.high * unit
  else
    i.low * unit < point && point < i.high * unit

/-- The decimal on the grid `10^k` nearest to the number among those in the interval. Only the two
grid points around the number need a look; at equal distance the upper one is taken. -/
def onGrid? (i : Interval) (k : Int) : Option Decimal :=
  let unit := 10 ^ k.toNat * i.den
  let mid := i.mid * 10 ^ (-k).toNat
  let floor := mid / unit
  match i.contains floor k, i.contains (floor + 1) k with
  | true, true =>
    if mid - floor * unit < (floor + 1) * unit - mid then
      some ⟨floor, k⟩
    else
      some ⟨floor + 1, k⟩
  | true, false => some ⟨floor, k⟩
  | false, true => some ⟨floor + 1, k⟩
  | false, false => none

/-- The first hit on the grids `10^k`, `10^(k-1)`, …, at most `grids` of them. -/
def firstFrom (i : Interval) : (grids : Nat) → (k : Int) → Decimal
  | 0, k => ⟨i.mid * 10 ^ (-k).toNat / (10 ^ k.toNat * i.den), k⟩
  | grids + 1, k =>
    match i.onGrid? k with
    | some d => d
    | none => i.firstFrom grids (k - 1)

/-- A power of ten at or above the number, and less than two orders of magnitude away. -/
def magnitude (i : Interval) : Int :=
  if i.den ≤ i.mid then
    (Nat.toDigits 10 (i.mid / i.den)).length
  else
    1 - ((Nat.toDigits 10 (i.den / i.mid)).length : Int)

/-- The shortest decimal of the number. Seventeen digits always suffice, so the grids do not run
out. -/
def shortest (i : Interval) : Decimal := i.firstFrom 20 i.magnitude

end Interval

/-- The text of a pattern. -/
def text {p : Precision} (x : Pattern p) : String :=
  match unpack x with
  | .nan => "NaN"
  | .infinite negative => if negative then "-inf" else "inf"
  | .finite negative m e =>
    let sign := if negative then "-" else ""
    if m = 0 then sign ++ "0" else sign ++ (Interval.ofNumber p m e).shortest.text

end ManagedVm.Floating
