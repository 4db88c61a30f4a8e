import Mathlib.Algebra.Ring.Nat

/-! # Parts of words

The low bits of a word are a remainder, and what is shifted out of them is a quotient.
-/

namespace Wnu.Memory

variable {k : ℕ}

theorem toNat_low8 (x : UInt8) {m : UInt8} (h : m.toNat = 2 ^ k - 1) :
    (x &&& m).toNat = x.toNat % 2 ^ k := by
  rw [UInt8.toNat_and, h, Nat.and_two_pow_sub_one_eq_mod]

theorem toNat_low16 (x : UInt16) {m : UInt16} (h : m.toNat = 2 ^ k - 1) :
    (x &&& m).toNat = x.toNat % 2 ^ k := by
  rw [UInt16.toNat_and, h, Nat.and_two_pow_sub_one_eq_mod]

theorem toNat_low32 (x : UInt32) {m : UInt32} (h : m.toNat = 2 ^ k - 1) :
    (x &&& m).toNat = x.toNat % 2 ^ k := by
  rw [UInt32.toNat_and, h, Nat.and_two_pow_sub_one_eq_mod]

theorem toNat_low64 (x : UInt64) {m : UInt64} (h : m.toNat = 2 ^ k - 1) :
    (x &&& m).toNat = x.toNat % 2 ^ k := by
  rw [UInt64.toNat_and, h, Nat.and_two_pow_sub_one_eq_mod]

theorem toNat_high16 (x : UInt16) {s : UInt16} (h : s.toNat % 16 = k) :
    (x >>> s).toNat = x.toNat / 2 ^ k := by
  rw [UInt16.toNat_shiftRight, h, Nat.shiftRight_eq_div_pow]

theorem toNat_high32 (x : UInt32) {s : UInt32} (h : s.toNat % 32 = k) :
    (x >>> s).toNat = x.toNat / 2 ^ k := by
  rw [UInt32.toNat_shiftRight, h, Nat.shiftRight_eq_div_pow]

theorem toNat_high64 (x : UInt64) {s : UInt64} (h : s.toNat % 64 = k) :
    (x >>> s).toNat = x.toNat / 2 ^ k := by
  rw [UInt64.toNat_shiftRight, h, Nat.shiftRight_eq_div_pow]

end Wnu.Memory
