import ManagedVm.Size

/-!
# Words

Cutting to words at every sum is cutting the exact sum once, and as long as the exact sum is a word
nothing is cut (`word_add_word`, `word_of_lt`). With overflow checks a result is exact, or the program
stops (`fit_eq_ok`).

What is proved is proved of the build with overflow checks, unless a statement takes the build as a
parameter or names another one.
-/

namespace ManagedVm.Size

section

variable [Build]

theorem word_of_lt {n : Nat} (h : n < UInt64.size) : word n = n := by
  unfold word
  split
  · rfl
  · exact Nat.mod_eq_of_lt h

@[simp] theorem word_zero : word 0 = 0 := word_of_lt (by decide)

/-- The sum of two words, cut to a word, is the exact sum cut to a word. -/
theorem word_add_word (a b : Nat) : word (word a + word b) = word (a + b) := by
  unfold word
  split
  · rfl
  · exact (Nat.add_mod a b UInt64.size).symm

theorem overflows_add_word (a b : Nat) : overflows (word a + word b) = overflows (a + b) := by
  unfold overflows word
  split <;> rfl

theorem fit_eq_ok_iff {ε : Type} {stopped : ε} {n k : Nat} :
    fit stopped n = .ok k ↔ overflows n = false ∧ k = word n := by
  unfold fit
  cases overflows n <;> simp [eq_comm]

theorem fit_eq_error_iff {ε : Type} {stopped e : ε} {n : Nat} :
    fit stopped n = .error e ↔ overflows n = true ∧ e = stopped := by
  unfold fit
  cases overflows n <;> simp [eq_comm]

end

/-! ## With overflow checks -/

attribute [instance] Build.checked

@[simp] theorem overflows_checked (n : Nat) : overflows n = decide (UInt64.size ≤ n) := rfl

@[simp] theorem word_checked (n : Nat) : word n = n := rfl

@[simp] theorem isInverted_checked (start stop : Nat) : isInverted start stop = false := rfl

variable {ε : Type} {stopped e : ε} {n k : Nat}

theorem fit_of_lt (h : n < UInt64.size) : fit stopped n = .ok n := by
  simp [fit, h]

/-- **A result is exact**, and a word. -/
theorem fit_eq_ok : fit stopped n = .ok k ↔ n < UInt64.size ∧ k = n := by
  simp [fit_eq_ok_iff]

end ManagedVm.Size
