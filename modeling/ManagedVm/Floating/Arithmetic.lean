import ManagedVm.Floating.Format
import ManagedVm.Naturals

/-!
# Arithmetic on floating-point patterns

Each operation decodes its operands, computes the exact result and rounds it once. Division is the
only one whose exact result need not be a whole multiple of a power of two: it takes more quotient
bits than any format keeps and marks a lost remainder in the bit below them, which decides every
tie as the exact quotient would. The remainder of a division is always representable.
-/

namespace ManagedVm.Floating

open scoped Naturals

variable {p : Precision}

/-- The whole number with a sign and a magnitude. -/
def signed (negative : Bool) (n : Nat) : Int := if negative then -(n : Int) else n

/-- The pattern with the opposite sign. -/
def negate (x : Pattern p) : Pattern p := x ^^^ .ofNat p.width (2 ^ (p.width - 1))

/-- The pattern nearest to a whole number. -/
def ofInt (p : Precision) (i : Int) : Pattern p := round p (i < 0) i.natAbs 0

/-- The pattern of the same number in another precision. Within one precision nothing changes. -/
def convert : (p q : Precision) → Pattern p → Pattern q
  | .single, .single, x => x
  | .double, .double, x => x
  | .single, q, x | .double, q, x =>
    match unpack x with
    | .nan => nan q
    | .infinite negative => infinity q negative
    | .finite negative m e => round q negative m e

/-- The sum; a sum of zero is negative only if both operands are. -/
def add (x y : Pattern p) : Pattern p :=
  match unpack x, unpack y with
  | .nan, _ | _, .nan => nan p
  | .infinite s, .infinite t => if s = t then x else nan p
  | .infinite _, .finite .. => x
  | .finite .., .infinite _ => y
  | .finite s m e, .finite t n f =>
    let low := min e f
    let sum := signed s (m <<< (e - low).toNat) + signed t (n <<< (f - low).toNat)
    if sum = 0 then round p (s && t) 0 0 else round p (sum < 0) sum.natAbs low

/-- The difference. -/
def sub (x y : Pattern p) : Pattern p := add x (negate y)

/-- The product. -/
def mul (x y : Pattern p) : Pattern p :=
  match unpack x, unpack y with
  | .nan, _ | _, .nan => nan p
  | .infinite s, .infinite t => infinity p (s ^^ t)
  | .infinite s, .finite t n _ | .finite t n _, .infinite s =>
    if n = 0 then nan p else infinity p (s ^^ t)
  | .finite s m e, .finite t n f => round p (s ^^ t) (m * n) (e + f)

/-- The quotient. -/
def div (x y : Pattern p) : Pattern p :=
  match unpack x, unpack y with
  | .nan, _ | _, .nan => nan p
  | .infinite _, .infinite _ => nan p
  | .infinite s, .finite t _ _ => infinity p (s ^^ t)
  | .finite s _ _, .infinite t => round p (s ^^ t) 0 0
  | .finite s m e, .finite t n f =>
    if n = 0 then
      if m = 0 then nan p else infinity p (s ^^ t)
    else
      -- The quotient gets at least two bits more than the format keeps.
      let places := n.log2 + p.fractionBits + 3
      let quotient := (m <<< places) / n
      let lost := if (m <<< places) % n = 0 then 0 else 1
      round p (s ^^ t) (2 * quotient + lost) (e - f - places - 1)

/-- The remainder of the division truncated toward zero; it has the sign of the dividend. -/
def rem (x y : Pattern p) : Pattern p :=
  match unpack x, unpack y with
  | .nan, _ | _, .nan => nan p
  | .infinite _, _ => nan p
  | .finite .., .infinite _ => x
  | .finite s m e, .finite _ n f =>
    if n = 0 then
      nan p
    else
      let low := min e f
      round p s ((m <<< (e - low).toNat) % (n <<< (f - low).toNat)) low

/-- How two numbers compare; nothing compares with a pattern that is no number. -/
def compare? (x y : Pattern p) : Option Ordering :=
  match unpack x, unpack y with
  | .nan, _ | _, .nan => none
  | .infinite s, .infinite t => some (compare (signed s 1) (signed t 1))
  | .infinite s, .finite .. => some (compare (signed s 1) 0)
  | .finite .., .infinite t => some (compare 0 (signed t 1))
  | .finite s m e, .finite t n f =>
    let low := min e f
    some (compare (signed s (m <<< (e - low).toNat)) (signed t (n <<< (f - low).toNat)))

/-- The number is a zero of either sign. -/
def isZero (x : Pattern p) : Bool :=
  match unpack x with
  | .finite _ m _ => m = 0
  | _ => false

/-- The number without its fraction, kept between two bounds: an infinity is the bound on its side,
and what is no number is zero. -/
def truncate (low high : Int) (x : Pattern p) : Int :=
  match unpack x with
  | .nan => 0
  | .infinite negative => if negative then low else high
  | .finite negative m e =>
    let whole := if 0 ≤ e then m <<< e.toNat else m >>> (-e).toNat
    max low (min high (signed negative whole))

end ManagedVm.Floating
