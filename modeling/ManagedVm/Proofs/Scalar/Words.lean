import Mathlib.Algebra.Order.Group.Int
import Mathlib.Data.Int.ModEq
import Mathlib.Data.Rat.Floor
import ManagedVm.Scalar.Arithmetic

/-!
# Arithmetic of words

A word stands for a whole number of its kind's range, and two words of a kind are the same if their
numbers leave the same remainder modulo two to the width. What an operation on words computes is said
here on these numbers: the exact result for sums, differences, products and shifts, of which the bits
above the width are dropped, and for a division the quotient truncated toward zero with its remainder.

Nothing depends on the kind beside its width and its sign, so each operation has one law for all nine
kinds (`binary_word`). The right operand may be of any kind: it counts as the number of the left
operand's kind that is left of it.
-/

namespace ManagedVm

/-! ## Numbers of a kind -/

namespace WordKind

/-- The least number of the kind. -/
def least (k : WordKind) : Int := if k.isSigned then -2 ^ (k.width - 1) else 0

/-- The greatest number of the kind. -/
def greatest (k : WordKind) : Int :=
  if k.isSigned then 2 ^ (k.width - 1) - 1 else 2 ^ k.width - 1

/-- The number of the kind that is left of a whole number without its bits above the width. -/
def wrap (k : WordKind) (i : Int) : Int :=
  if k.isSigned then i.bmod (2 ^ k.width) else i % 2 ^ k.width

variable (k : WordKind)

theorem width_pos : 0 < k.width := by cases k <;> decide

/-- Half of the words of a kind have the highest bit. -/
theorem two_pow_width : (2 : Int) ^ k.width = 2 * 2 ^ (k.width - 1) := by
  rw [← pow_succ', Nat.sub_add_cancel k.width_pos]

variable {k}

theorem value_of_signed (h : k.isSigned = true) (x : BitVec k.width) : k.value x = x.toInt := by
  rw [value, if_pos h]

theorem value_of_unsigned (h : k.isSigned = false) (x : BitVec k.width) : k.value x = x.toNat := by
  rw [value, if_neg (by simp [h])]

variable (k)

theorem value_modEq_toNat (x : BitVec k.width) : k.value x ≡ x.toNat [ZMOD 2 ^ k.width] := by
  cases h : k.isSigned with
  | true =>
    rw [value_of_signed h, BitVec.toInt_eq_toNat_bmod]
    simpa [Int.ModEq] using Int.bmod_emod (x := (x.toNat : Int)) (m := 2 ^ k.width)
  | false => rw [value_of_unsigned h]

theorem least_le_value (x : BitVec k.width) : k.least ≤ k.value x := by
  cases h : k.isSigned with
  | true =>
    rw [value_of_signed h, least, if_pos h]
    exact BitVec.le_toInt x
  | false =>
    rw [value_of_unsigned h, least, if_neg (by simp [h])]
    exact Int.natCast_nonneg _

theorem value_le_greatest (x : BitVec k.width) : k.value x ≤ k.greatest := by
  cases h : k.isSigned with
  | true =>
    rw [value_of_signed h, greatest, if_pos h]
    exact Int.le_sub_one_of_lt BitVec.toInt_lt
  | false =>
    rw [value_of_unsigned h, greatest, if_neg (by simp [h])]
    have hlt : (x.toNat : Int) < 2 ^ k.width := by exact_mod_cast x.isLt
    exact Int.le_sub_one_of_lt hlt

/-- **A word made from a number stands for what is left of the number.** -/
@[simp] theorem value_ofInt (i : Int) : k.value (.ofInt k.width i) = k.wrap i := by
  cases h : k.isSigned with
  | true => rw [value_of_signed h, wrap, if_pos h, BitVec.toInt_ofInt]
  | false =>
    have hpos : (0 : Int) < 2 ^ k.width := by positivity
    rw [value_of_unsigned h, wrap, if_neg (by simp [h]), BitVec.toNat_ofInt]
    push_cast
    exact Int.toNat_of_nonneg (Int.emod_nonneg i hpos.ne')

theorem wrap_modEq (i : Int) : k.wrap i ≡ i [ZMOD 2 ^ k.width] := by
  cases h : k.isSigned with
  | true =>
    rw [wrap, if_pos h]
    simpa [Int.ModEq] using Int.bmod_emod (x := i) (m := 2 ^ k.width)
  | false =>
    rw [wrap, if_neg (by simp [h])]
    exact Int.mod_modEq i _

/-- Numbers of the kind that leave the same remainder are the same. -/
theorem eq_of_modEq {i j : Int} (hi : k.least ≤ i) (hi' : i ≤ k.greatest) (hj : k.least ≤ j)
    (hj' : j ≤ k.greatest) (h : i ≡ j [ZMOD 2 ^ k.width]) : i = j := by
  have hrange : k.greatest - k.least = 2 ^ k.width - 1 := by
    unfold greatest least
    split
    · rw [two_pow_width]
      ring
    · ring
  have hdvd : (2 : Int) ^ k.width ∣ j - i := h.dvd
  have habs : |j - i| < 2 ^ k.width := by
    rw [abs_lt]
    constructor <;> linarith
  linarith [Int.eq_zero_of_abs_lt_dvd hdvd habs]

theorem least_le_wrap (i : Int) : k.least ≤ k.wrap i := by
  rw [← value_ofInt]
  exact k.least_le_value _

theorem wrap_le_greatest (i : Int) : k.wrap i ≤ k.greatest := by
  rw [← value_ofInt]
  exact k.value_le_greatest _

/-- Nothing is dropped from a number of the kind. -/
theorem wrap_of_mem {i : Int} (hlow : k.least ≤ i) (hhigh : i ≤ k.greatest) : k.wrap i = i :=
  k.eq_of_modEq (k.least_le_wrap i) (k.wrap_le_greatest i) hlow hhigh (k.wrap_modEq i)

theorem value_eq_zero_iff (x : BitVec k.width) : k.value x = 0 ↔ x = 0 := by
  cases h : k.isSigned with
  | true =>
    rw [value_of_signed h, ← BitVec.toInt_inj]
    simp
  | false =>
    rw [value_of_unsigned h, ← BitVec.toNat_inj]
    simp

/-- A count of shifts is the same taken from the number or from the bits, for the width divides the
number of words. -/
theorem value_emod_width (y : BitVec k.width) :
    (k.value y % k.width).toNat = y.toNat % k.width := by
  have hdvd : (k.width : Int) ∣ 2 ^ k.width := by cases k <;> decide
  have hmod : k.value y ≡ y.toNat [ZMOD k.width] := (k.value_modEq_toNat y).of_dvd hdvd
  rw [hmod]
  norm_cast

end WordKind

/-! ## Operations on words -/

namespace Scalar

/-- **Division of whole numbers**: the quotient is truncated toward zero, and the remainder is smaller
than the divisor and has the sign of the dividend. -/
structure Divided (a b q r : Int) : Prop where
  quotient : q = a.tdiv b
  whole : a = q * b + r
  small : |r| < |b|
  sign : r = 0 ∨ r.sign = a.sign

/-- The result is a word of the kind, with a number that is right. -/
def Gives (k : WordKind) (result : Except Error Scalar) (right : Int → Prop) : Prop :=
  ∃ z, result = .ok (.word k z) ∧ right (k.value z)

variable {k : WordKind} (x y : BitVec k.width)

theorem value_add_modEq : k.value (x + y) ≡ k.value x + k.value y [ZMOD 2 ^ k.width] := by
  calc k.value (x + y)
      ≡ ((x + y).toNat : Int) [ZMOD 2 ^ k.width] := k.value_modEq_toNat _
    _ ≡ x.toNat + y.toNat [ZMOD 2 ^ k.width] := by
      rw [BitVec.toNat_add]
      push_cast
      exact Int.mod_modEq _ _
    _ ≡ k.value x + k.value y [ZMOD 2 ^ k.width] :=
      ((k.value_modEq_toNat x).add (k.value_modEq_toNat y)).symm

/-- The difference is what gives the first number again when the second one is added. -/
theorem value_sub_modEq : k.value (x - y) ≡ k.value x - k.value y [ZMOD 2 ^ k.width] := by
  have hsum : k.value (x - y + y) ≡ k.value (x - y) + k.value y [ZMOD 2 ^ k.width] :=
    value_add_modEq (x - y) y
  rw [BitVec.sub_add_cancel] at hsum
  simpa using (hsum.sub_right (k.value y)).symm

theorem value_mul_modEq : k.value (x * y) ≡ k.value x * k.value y [ZMOD 2 ^ k.width] := by
  calc k.value (x * y)
      ≡ ((x * y).toNat : Int) [ZMOD 2 ^ k.width] := k.value_modEq_toNat _
    _ ≡ x.toNat * y.toNat [ZMOD 2 ^ k.width] := by
      rw [BitVec.toNat_mul]
      push_cast
      exact Int.mod_modEq _ _
    _ ≡ k.value x * k.value y [ZMOD 2 ^ k.width] :=
      ((k.value_modEq_toNat x).mul (k.value_modEq_toNat y)).symm

theorem value_shiftLeft_modEq (n : Nat) :
    k.value (x <<< n) ≡ k.value x * 2 ^ n [ZMOD 2 ^ k.width] := by
  calc k.value (x <<< n)
      ≡ ((x <<< n).toNat : Int) [ZMOD 2 ^ k.width] := k.value_modEq_toNat _
    _ ≡ x.toNat * 2 ^ n [ZMOD 2 ^ k.width] := by
      rw [BitVec.toNat_shiftLeft, Nat.shiftLeft_eq]
      push_cast
      exact Int.mod_modEq _ _
    _ ≡ k.value x * 2 ^ n [ZMOD 2 ^ k.width] := ((k.value_modEq_toNat x).mul_right _).symm

/-- A shift to the right divides and rounds down, be the highest bit a sign or not. -/
theorem value_shiftRight (n : Nat) :
    k.value (if k.isSigned then x.sshiftRight n else x >>> n) = ⌊(k.value x : ℚ) / 2 ^ n⌋ := by
  have hfloor : ⌊(k.value x : ℚ) / 2 ^ n⌋ = k.value x / 2 ^ n := by
    have := Rat.floor_intCast_div_natCast (k.value x) (2 ^ n)
    push_cast at this
    exact this
  rw [hfloor]
  cases h : k.isSigned with
  | true =>
    rw [if_pos rfl, WordKind.value_of_signed h, WordKind.value_of_signed h, BitVec.toInt_sshiftRight,
      Int.shiftRight_eq_div_pow]
    push_cast
    rfl
  | false =>
    rw [if_neg Bool.false_ne_true, WordKind.value_of_unsigned h, WordKind.value_of_unsigned h,
      BitVec.toNat_ushiftRight, Nat.shiftRight_eq_div_pow]
    push_cast
    rfl

/-! ## Division -/

theorem divided_tdiv {a b : Int} (hb : b ≠ 0) : Divided a b (a.tdiv b) (a.tmod b) where
  quotient := rfl
  whole := by
    rw [mul_comm]
    exact (Int.mul_tdiv_add_tmod a b).symm
  small := by
    rw [Int.abs_eq_natAbs, Int.abs_eq_natAbs, Int.natAbs_tmod]
    exact_mod_cast Nat.mod_lt _ (Int.natAbs_pos.mpr hb)
  sign := by
    rw [Int.sign_tmod]
    by_cases hdvd : b ∣ a
    · exact .inl (Int.tmod_eq_zero_of_dvd hdvd)
    · exact .inr (if_neg hdvd)

theorem value_rem :
    k.value (if k.isSigned then x.srem y else x.umod y) = (k.value x).tmod (k.value y) := by
  cases h : k.isSigned with
  | true =>
    rw [if_pos rfl]
    simp only [WordKind.value_of_signed h, BitVec.toInt_srem]
  | false =>
    rw [if_neg Bool.false_ne_true]
    simp only [WordKind.value_of_unsigned h]
    rw [BitVec.umod_eq, BitVec.toNat_umod, Int.ofNat_tmod]

/-- The quotient is the exact one, but for the one that is greater than every number of the kind. -/
theorem value_div (hfits : ¬ (k.value x = k.least ∧ k.value y = -1)) :
    k.value (if k.isSigned then x.sdiv y else x.udiv y) = (k.value x).tdiv (k.value y) := by
  cases h : k.isSigned with
  | true =>
    rw [if_pos rfl]
    simp only [WordKind.value_of_signed h, WordKind.least, if_pos h] at hfits ⊢
    apply BitVec.toInt_sdiv_of_ne_or_ne
    rw [← not_and_or]
    rintro ⟨rfl, rfl⟩
    rw [BitVec.neg_one_eq_allOnes, BitVec.toInt_allOnes, if_pos k.width_pos] at hfits
    exact hfits ⟨BitVec.toInt_intMin_of_pos k.width_pos, rfl⟩
  | false =>
    rw [if_neg Bool.false_ne_true]
    simp only [WordKind.value_of_unsigned h]
    rw [BitVec.udiv_eq, BitVec.toNat_udiv, Int.ofNat_tdiv]

/-- Dividing the least number by minus one gives it back. -/
theorem value_div_of_overflow (hx : k.value x = k.least) (hy : k.value y = -1) :
    k.value (if k.isSigned then x.sdiv y else x.udiv y) = k.least := by
  cases h : k.isSigned with
  | true =>
    rw [WordKind.value_of_signed h] at hx hy
    have hleast : k.least = (BitVec.intMin k.width).toInt := by
      rw [BitVec.toInt_intMin_of_pos k.width_pos, WordKind.least, if_pos h]
    have hone : (-1 : Int) = (-1#k.width).toInt := by
      rw [BitVec.neg_one_eq_allOnes, BitVec.toInt_allOnes, if_pos k.width_pos]
    obtain rfl := BitVec.toInt_inj.mp (hx.trans hleast)
    obtain rfl := BitVec.toInt_inj.mp (hy.trans hone)
    rw [if_pos rfl, WordKind.value_of_signed h, BitVec.intMin_sdiv_neg_one, hx]
  | false =>
    have hnonneg := k.least_le_value y
    rw [hy, WordKind.least, if_neg (by simp [h])] at hnonneg
    exact absurd hnonneg (by decide)

/-! ## All operations -/

/-- **The operations compute with whole numbers** modulo two to the width of the kind: `a` is the
number of the left operand and `b` what is left of the right one in the kind. -/
structure Modular (k : WordKind) (a b : Int) (run : Operator → Except Error Scalar) : Prop where
  /-- The result has the kind of the left operand. -/
  kind : ∀ op s, run op = .ok s → s.kind = .word k
  sum : Gives k (run .add) (· ≡ a + b [ZMOD 2 ^ k.width])
  difference : Gives k (run .sub) (· ≡ a - b [ZMOD 2 ^ k.width])
  product : Gives k (run .mul) (· ≡ a * b [ZMOD 2 ^ k.width])
  /-- The divisor counts as zero if nothing is left of it. -/
  byZero : ∀ op, op = .div ∨ op = .rem → (run op = .error .divisionByZero ↔ b = 0)
  division : b ≠ 0 → ¬ (a = k.least ∧ b = -1) →
    Gives k (run .div) fun q => Gives k (run .rem) fun r => Divided a b q r
  /-- The one quotient that no word stands for. -/
  overflow : a = k.least → b = -1 → Gives k (run .div) (· = k.least) ∧ Gives k (run .rem) (· = 0)
  left : Gives k (run .shl) (· ≡ a * 2 ^ (b % k.width).toNat [ZMOD 2 ^ k.width])
  right : Gives k (run .shr) (· = ⌊(a : ℚ) / 2 ^ (b % k.width).toNat⌋)

/-- Division of words, unless the divisor is zero. -/
theorem wordOperation_div (hy : k.value y ≠ 0) :
    wordOperation k .div x y = .ok (if k.isSigned then x.sdiv y else x.udiv y) := by
  rw [wordOperation, if_neg (fun h => hy ((k.value_eq_zero_iff y).mpr h))]

theorem wordOperation_rem (hy : k.value y ≠ 0) :
    wordOperation k .rem x y = .ok (if k.isSigned then x.srem y else x.umod y) := by
  rw [wordOperation, if_neg (fun h => hy ((k.value_eq_zero_iff y).mpr h))]

theorem wordOperation_byZero {op : Operator} (hop : op = .div ∨ op = .rem) :
    wordOperation k op x y = .error .divisionByZero ↔ k.value y = 0 := by
  rw [k.value_eq_zero_iff]
  obtain rfl | rfl := hop <;> simp [wordOperation]

theorem modular_wordOperation :
    Modular k (k.value x) (k.value y) fun op => (wordOperation k op x y).map (.word k) where
  kind op s h := by
    cases hop : wordOperation k op x y with
    | error e =>
      rw [hop] at h
      cases h
    | ok z =>
      rw [hop] at h
      cases h
      rfl
  sum := ⟨_, rfl, value_add_modEq x y⟩
  difference := ⟨_, rfl, value_sub_modEq x y⟩
  product := ⟨_, rfl, value_mul_modEq x y⟩
  byZero op hop := by
    rw [← wordOperation_byZero x y hop]
    cases wordOperation k op x y <;> simp [Except.map]
  division hb hfits := by
    refine ⟨_, by rw [wordOperation_div x y hb]; rfl, _, by rw [wordOperation_rem x y hb]; rfl, ?_⟩
    rw [value_div x y hfits, value_rem]
    exact divided_tdiv hb
  overflow ha hb := by
    have hne : k.value y ≠ 0 := by
      rw [hb]
      decide
    constructor
    · exact ⟨_, by rw [wordOperation_div x y hne]; rfl, value_div_of_overflow x y ha hb⟩
    · refine ⟨_, by rw [wordOperation_rem x y hne]; rfl, ?_⟩
      rw [value_rem, hb, Int.tmod_neg, Int.tmod_one]
  left := by
    rw [k.value_emod_width]
    exact ⟨_, rfl, value_shiftLeft_modEq x _⟩
  right := by
    rw [k.value_emod_width]
    exact ⟨_, rfl, value_shiftRight x _⟩

/-- **Arithmetic of words is exact modulo two to the width.** This holds for every kind of the left
operand and every scalar on the right, of which only the number counts that is left of it in the
kind of the left one. -/
theorem modular_binary (k : WordKind) (x : BitVec k.width) (b : Scalar) :
    Modular k (k.value x) (k.wrap b.toInt) fun op => binary op (.word k x) b := by
  rw [← k.value_ofInt]
  exact modular_wordOperation x (b.toWord k)

-- The divisors are minus one and zero once they are of the dividend's kind.
example : binary .div (.ofInt .sbyte (-128)) (.ofInt .long 255) = .ok (.ofInt .sbyte (-128)) := rfl

example : binary .rem (.ofInt .byte 7) (.ofInt .int 256) = .error .divisionByZero := rfl

end Scalar

end ManagedVm
