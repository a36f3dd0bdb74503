import Mathlib.Tactic.FieldSimp
import ManagedVm.Proofs.Scalar.Words

/-!
# Floating-point numbers as words

A floating-point number becomes a whole number by dropping its fraction. To saturate is to take the
nearest bound where the whole number lies outside a range: `Floating.saturate` says so of the exact
number that a pattern stands for, and `truncate` computes it (`truncate_eq_saturate`).

A conversion to a word saturates at 128 bits and not at the bounds of the word's kind. What it gives is
left of the saturated number when the bits above the width are dropped (`convert_floating`). So the
bound of the kind comes out only if the number happens to have the bits of the bound, and for every
kind there is a number that comes out as another one (`exists_not_saturated`).
-/

namespace ManagedVm

namespace Floating

/-! ## Exact numbers -/

/-- The whole number next to a number on the side of zero. -/
def towardZero (q : ℚ) : Int := if 0 ≤ q then ⌊q⌋ else ⌈q⌉

/-- **A number without its fraction, kept within bounds.** An infinity is the bound on its side, and
what is no number is zero. -/
def saturate (low high : Int) : Number → Int
  | .nan => 0
  | .infinite negative => if negative then low else high
  | .finite negative m e => max low (min high (towardZero (signed negative m * 2 ^ e)))

theorem towardZero_neg (q : ℚ) : towardZero (-q) = -towardZero q := by
  unfold towardZero
  rcases lt_trichotomy q 0 with hneg | rfl | hpos
  · rw [if_pos (by linarith), if_neg (by linarith), Int.floor_neg]
  · simp
  · rw [if_neg (by linarith), if_pos (by linarith), Int.ceil_neg]

/-- Shifting a significand by its exponent leaves the whole part. -/
theorem floor_mul_zpow (m : Nat) (e : Int) :
    ⌊(m : ℚ) * 2 ^ e⌋ = ((if 0 ≤ e then m <<< e.toNat else m >>> (-e).toNat : Nat) : Int) := by
  by_cases he : 0 ≤ e
  · obtain ⟨n, rfl⟩ := Int.eq_ofNat_of_zero_le he
    rw [if_pos he, Int.toNat_natCast, Nat.shiftLeft_eq, zpow_natCast]
    exact_mod_cast Int.floor_natCast (R := ℚ) (m * 2 ^ n)
  · obtain ⟨n, hn⟩ := Int.eq_ofNat_of_zero_le (show 0 ≤ -e by omega)
    obtain rfl : e = -n := by omega
    rw [if_neg he, neg_neg, Int.toNat_natCast, Nat.shiftRight_eq_div_pow, zpow_neg, zpow_natCast,
      ← div_eq_mul_inv]
    exact_mod_cast Rat.floor_natCast_div_natCast m (2 ^ n)

theorem towardZero_signed (negative : Bool) (m : Nat) (e : Int) :
    towardZero (signed negative m * 2 ^ e) =
      signed negative (if 0 ≤ e then m <<< e.toNat else m >>> (-e).toNat) := by
  have hpos : towardZero ((m : ℚ) * 2 ^ e) =
      ((if 0 ≤ e then m <<< e.toNat else m >>> (-e).toNat : Nat) : Int) := by
    have hnonneg : 0 ≤ (m : ℚ) * 2 ^ e := mul_nonneg (Nat.cast_nonneg m) (zpow_nonneg (by norm_num) e)
    rw [towardZero, if_pos hnonneg, floor_mul_zpow]
  cases negative with
  | false =>
    simp only [signed, Bool.false_eq_true, if_false]
    exact_mod_cast hpos
  | true =>
    simp only [signed, if_true]
    push_cast
    rw [neg_mul, towardZero_neg]
    exact_mod_cast congrArg Neg.neg hpos

/-- **Truncation saturates** at the bounds it is given. -/
theorem truncate_eq_saturate {p : Precision} (low high : Int) (x : Pattern p) :
    truncate low high x = saturate low high (unpack x) := by
  unfold truncate
  cases unpack x with
  | nan => rfl
  | infinite negative => rfl
  | finite negative m e =>
    dsimp only [saturate]
    rw [towardZero_signed]

/-- To saturate at wider bounds first changes nothing. -/
theorem saturate_eq_clamp {low high low' high' : Int} (hlow : low' ≤ low) (hhigh : high ≤ high')
    (hzero : low ≤ 0) (hzero' : 0 ≤ high) (x : Number) :
    saturate low high x = max low (min high (saturate low' high' x)) := by
  cases x with
  | nan => simp only [saturate]; omega
  | infinite negative => cases negative <;> simp only [saturate] <;> simp <;> omega
  | finite negative m e => simp only [saturate]; omega

end Floating

/-! ## Words -/

namespace WordKind

variable (k : WordKind)

theorem least_le_zero : k.least ≤ 0 := by cases k <;> decide

theorem zero_le_greatest : 0 ≤ k.greatest := by cases k <;> decide

/-- Every kind is narrower than 128 bits. -/
theorem narrow : (BitVec.intMin 128).toInt ≤ k.least ∧ k.greatest ≤ (BitVec.intMax 128).toInt := by
  cases k <;> decide

/-- **When dropping bits gives the nearest bound**: always within the range, and outside if the number
has the bits of the bound. -/
theorem wrap_eq_clamp_iff (i : Int) :
    k.wrap i = max k.least (min k.greatest i) ↔
      (k.least ≤ i ∧ i ≤ k.greatest) ∨
      (k.greatest < i ∧ i ≡ k.greatest [ZMOD 2 ^ k.width]) ∨
      (i < k.least ∧ i ≡ k.least [ZMOD 2 ^ k.width]) := by
  have hle : k.least ≤ k.greatest := k.least_le_zero.trans k.zero_le_greatest
  have hwrap : ∀ {j : Int}, k.least ≤ j → j ≤ k.greatest →
      (k.wrap i = j ↔ i ≡ j [ZMOD 2 ^ k.width]) := by
    intro j hlow hhigh
    constructor
    · rintro rfl
      exact (k.wrap_modEq i).symm
    · intro hmod
      exact k.eq_of_modEq (k.least_le_wrap i) (k.wrap_le_greatest i) hlow hhigh
        ((k.wrap_modEq i).trans hmod)
  rcases lt_or_ge i k.least with hbelow | hlow
  · rw [max_eq_left (by omega), hwrap (le_refl _) hle]
    constructor
    · exact fun h => .inr (.inr ⟨hbelow, h⟩)
    · rintro (⟨hin, -⟩ | ⟨hin, -⟩ | ⟨-, h⟩)
      · omega
      · omega
      · exact h
  · rcases lt_or_ge k.greatest i with habove | hhigh
    · rw [min_eq_left (by omega), max_eq_right hle, hwrap hle (le_refl _)]
      constructor
      · exact fun h => .inr (.inl ⟨habove, h⟩)
      · rintro (⟨-, hin⟩ | ⟨-, h⟩ | ⟨hin, -⟩)
        · omega
        · exact h
        · omega
    · rw [min_eq_right hhigh, max_eq_right hlow]
      exact iff_of_true (k.wrap_of_mem hlow hhigh) (.inl ⟨hlow, hhigh⟩)

end WordKind

namespace Scalar

open Floating (saturate unpack)

/-- The whole number that a conversion starts from: saturated at 128 bits. -/
def wide (x : Floating.Number) : Int :=
  saturate (BitVec.intMin 128).toInt (BitVec.intMax 128).toInt x

/-- **A floating-point number converts to what is left of it in the kind**, after saturating at 128
bits. It has the number that saturating at the kind's own bounds gives exactly if nothing is dropped
from it, or if it has the bits of the bound that it lies beyond. -/
theorem convert_floating (p : Precision) (x : Floating.Pattern p) (k : WordKind) :
    ∃ z, convert (.floating p x) (.word k) = .word k z ∧ k.value z = k.wrap (wide (unpack x)) ∧
      (k.value z = saturate k.least k.greatest (unpack x) ↔
        (k.least ≤ wide (unpack x) ∧ wide (unpack x) ≤ k.greatest) ∨
        (k.greatest < wide (unpack x) ∧ wide (unpack x) ≡ k.greatest [ZMOD 2 ^ k.width]) ∨
        (wide (unpack x) < k.least ∧ wide (unpack x) ≡ k.least [ZMOD 2 ^ k.width])) := by
  have hvalue : k.value (toWord (.floating p x) k) = k.wrap (wide (unpack x)) := by
    rw [toWord, k.value_ofInt, toInt, Floating.truncate_eq_saturate]
    rfl
  refine ⟨_, rfl, hvalue, ?_⟩
  rw [hvalue, Floating.saturate_eq_clamp k.narrow.1 k.narrow.2 k.least_le_zero k.zero_le_greatest]
  exact k.wrap_eq_clamp_iff _

/-- The pattern of the number 300. -/
def threeHundred : Floating.Pattern .double := .ofNat _ 0x4072C00000000000

/-- The number 300 is above every signed byte, and becomes the one that is 256 less. -/
theorem convert_threeHundred :
    saturate WordKind.sbyte.least WordKind.sbyte.greatest (unpack threeHundred) = 127 ∧
      convert (.floating .double threeHundred) (.word .sbyte) = .ofInt .sbyte 44 ∧
      WordKind.sbyte.value (.ofInt _ 44) = 44 := by
  rw [← Floating.truncate_eq_saturate]
  decide

/-- **No kind saturates**: the first power of two above its numbers comes out as another number than
the greatest one. -/
theorem exists_not_saturated (k : WordKind) : ∃ x : Floating.Pattern .double,
    convert (.floating .double x) (.word k) ≠
      .ofInt k (saturate k.least k.greatest (unpack x)) := by
  refine ⟨Floating.ofInt .double (k.greatest + 1), ?_⟩
  rw [← Floating.truncate_eq_saturate]
  cases k <;> decide

end Scalar

end ManagedVm
