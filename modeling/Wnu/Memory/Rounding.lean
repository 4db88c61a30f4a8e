import Mathlib.Algebra.Group.Nat.Defs
import Mathlib.Algebra.Order.Ring.Nat

/-! # Rounding down with a mask

Clearing the low bits of a word of a given width rounds it down to a multiple of a power
of two.
-/

namespace Wnu.Memory

variable {w k n : ℕ}

theorem two_pow_sub_two_pow (hk : k ≤ w) : 2 ^ w - 2 ^ k = (2 ^ (w - k) - 1) <<< k := by
  rw [Nat.shiftLeft_eq, Nat.sub_mul, Nat.one_mul, ← Nat.pow_add, Nat.sub_add_cancel hk]

theorem and_shiftLeft (n m k : ℕ) : n &&& (m <<< k) = ((n >>> k) &&& m) <<< k := by
  apply Nat.eq_of_testBit_eq
  intro i
  by_cases hi : k ≤ i
  · simp only [Nat.testBit_shiftLeft, Nat.testBit_and, Nat.testBit_shiftRight, hi,
      decide_true, Bool.true_and, Nat.add_sub_cancel' hi]
  · simp only [Nat.testBit_shiftLeft, Nat.testBit_and, hi, decide_false, Bool.false_and,
      Bool.and_false]

theorem and_two_pow_sub_two_pow (hk : k ≤ w) (hn : n < 2 ^ w) :
    n &&& (2 ^ w - 2 ^ k) = n / 2 ^ k * 2 ^ k := by
  have hhigh : n / 2 ^ k < 2 ^ (w - k) := by
    apply Nat.div_lt_of_lt_mul
    rwa [← Nat.pow_add, Nat.add_sub_cancel' hk]
  rw [two_pow_sub_two_pow hk, and_shiftLeft, Nat.and_two_pow_sub_one_eq_mod, Nat.shiftLeft_eq,
    Nat.shiftRight_eq_div_pow, Nat.mod_eq_of_lt hhigh]

end Wnu.Memory
