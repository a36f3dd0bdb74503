import ManagedVm.Proofs.Scalar.Words

/-!
# Words made from numbers

A word is made from a whole number by dropping the bits that do not fit. Sums and products of such words
are made from the sum and the product of the numbers, however often they wrap around; words that are
compared or used as an index must be made from numbers of their kind.
-/

namespace ManagedVm

namespace WordKind

variable (k : WordKind)

/-- A word is made from its own number. -/
theorem ofInt_value (x : BitVec k.width) : BitVec.ofInt k.width (k.value x) = x := by
  cases h : k.isSigned with
  | true => rw [value_of_signed h, BitVec.ofInt_toInt]
  | false => rw [value_of_unsigned h, BitVec.ofInt_natCast, BitVec.ofNat_toNat, BitVec.setWidth_eq]

/-- Whether the number is one of the kind. -/
def Holds (i : Int) : Prop := k.least ≤ i ∧ i ≤ k.greatest

variable {k}

theorem value_of_holds {i : Int} (h : k.Holds i) : k.value (.ofInt k.width i) = i := by
  rw [value_ofInt, wrap_of_mem k h.1 h.2]

theorem holds_int {i : Int} : int.Holds i ↔ -2147483648 ≤ i ∧ i ≤ 2147483647 := Iff.rfl

theorem holds_toInt (n : Int32) : int.Holds n.toInt := by
  have hlow := n.le_toInt
  have hhigh := n.toInt_lt
  rw [holds_int]
  omega

theorem holds_long_of_int {i : Int} (h : int.Holds i) : long.Holds i := by
  obtain ⟨hlow, hhigh⟩ := holds_int.mp h
  have hleast : long.least = -9223372036854775808 := rfl
  have hgreatest : long.greatest = 9223372036854775807 := rfl
  constructor <;> omega

end WordKind

namespace Scalar

variable (k : WordKind) (a b : Int)

theorem toWord_ofInt : (ofInt k a).toWord k = .ofInt k.width a := k.ofInt_value _

theorem binary_add_ofInt : binary .add (ofInt k a) (ofInt k b) = .ok (ofInt k (a + b)) := by
  show Except.ok (word k (.ofInt k.width a + (ofInt k b).toWord k)) = _
  rw [toWord_ofInt, ← BitVec.ofInt_add]
  rfl

theorem binary_mul_ofInt : binary .mul (ofInt k a) (ofInt k b) = .ok (ofInt k (a * b)) := by
  show Except.ok (word k (.ofInt k.width a * (ofInt k b).toWord k)) = _
  rw [toWord_ofInt, ← BitVec.ofInt_mul]
  rfl

variable {k a b}

/-- Words of a kind compare as their numbers do. -/
theorem compare_ofInt (c : Comparison) (ha : k.Holds a) (hb : k.Holds b) :
    compare c (ofInt k a) (ofInt k b) = .ok (c.holds (some (Ord.compare a b))) := by
  show Except.ok (c.holds (some (Ord.compare (k.value (.ofInt k.width a))
    (k.value ((ofInt k b).toWord k))))) = _
  rw [toWord_ofInt, WordKind.value_of_holds ha, WordKind.value_of_holds hb]

theorem compare_gt_ofInt (ha : k.Holds a) (hb : k.Holds b) :
    compare .gt (ofInt k a) (ofInt k b) = .ok (decide (b < a)) := by
  rw [compare_ofInt _ ha hb]
  simp [Comparison.holds, compare_gt_iff_gt]

theorem compare_lt_ofInt (ha : k.Holds a) (hb : k.Holds b) :
    compare .lt (ofInt k a) (ofInt k b) = .ok (decide (a < b)) := by
  rw [compare_ofInt _ ha hb]
  simp [Comparison.holds, compare_lt_iff_lt]

/-- A word as an index. -/
theorem long_value_ofInt {i : Int} (h : WordKind.int.Holds i) :
    WordKind.long.value ((ofInt .int i).toWord .long) = i := by
  show WordKind.long.value (.ofInt _ (WordKind.int.value (.ofInt _ i))) = i
  rw [WordKind.value_of_holds h, WordKind.value_of_holds (WordKind.holds_long_of_int h)]

end Scalar

end ManagedVm
