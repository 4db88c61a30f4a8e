import Wnu.Memory.Bytes
import Mathlib.Data.Nat.Digits.Defs

/-! # Little-endian numbers in memory

A number is stored byte by byte, the lowest byte first. What is loaded from where a
number was stored is the number, as far as the bytes go, and a store elsewhere does not
change it.
-/

namespace Wnu.Memory

variable (p : Mem UInt8)

def bytesLE (v : ℕ) : Mem UInt8 := fun j => UInt8.ofNat (v / 256 ^ j)

/-- Store a number in the `n` bytes from an index on. -/
def storeLE (i n v : ℕ) : Mem UInt8 := copyLoop p i (bytesLE v) n

/-- The number in the `n` bytes from an index on. -/
def loadLE (i n : ℕ) : ℕ :=
  Nat.ofDigits 256 ((window (fun j => p (i + j)) n).map UInt8.toNat)

variable {p} {q : Mem UInt8} {i j k n : ℕ}

theorem loadLE_congr (h : ∀ j < n, p (i + j) = q (i + j)) : loadLE p i n = loadLE q i n := by
  rw [loadLE, window_congr h, loadLE]

theorem loadLE_add (p : Mem UInt8) (i k n : ℕ) :
    loadLE p i (k + n) = loadLE p i k + 256 ^ k * loadLE p (i + k) n := by
  simp only [loadLE, window_add, List.map_append, Nat.ofDigits_append, List.length_map,
    length_window, Nat.add_assoc]

theorem loadLE_one (p : Mem UInt8) (i : ℕ) : loadLE p i 1 = (p i).toNat := by
  simp [loadLE, window]

theorem loadLE_eq_zero (h : ∀ j < n, p (i + j) = 0) : loadLE p i n = 0 := by
  induction n with
  | zero => rfl
  | succ n ih =>
    rw [loadLE_add, loadLE_one, ih fun j hj => h j (by omega), h n (Nat.lt_succ_self n)]
    rfl

theorem storeLE_apply (p : Mem UInt8) (i n v j : ℕ) :
    storeLE p i n v j = if i ≤ j ∧ j < i + n then UInt8.ofNat (v / 256 ^ (j - i)) else p j :=
  copyLoop_apply ..

theorem loadLE_storeLE (p : Mem UInt8) (i n v : ℕ) :
    loadLE (storeLE p i n v) i n = v % 256 ^ n := by
  induction n with
  | zero => simp [loadLE, Nat.mod_one]
  | succ n ih =>
    have hsame : loadLE (storeLE p i (n + 1) v) i n = loadLE (storeLE p i n v) i n :=
      loadLE_congr fun j hj => by
        rw [storeLE_apply, storeLE_apply, if_pos (by omega), if_pos (by omega)]
    have hbyte : (storeLE p i (n + 1) v (i + n)).toNat = v / 256 ^ n % 256 := by
      rw [storeLE_apply, if_pos (by omega), Nat.add_sub_cancel_left]
      exact UInt8.toNat_ofNat'
    rw [loadLE_add, loadLE_one, hsame, ih, hbyte, Nat.pow_succ, Nat.mod_mul]

theorem loadLE_storeLE_of_disjoint (h : j + k ≤ i ∨ i + n ≤ j) (p : Mem UInt8) (v : ℕ) :
    loadLE (storeLE p i n v) j k = loadLE p j k :=
  loadLE_congr fun l hl => by rw [storeLE_apply, if_neg (by omega)]

theorem loadLE_update_of_ne (h : i < j ∨ j + k ≤ i) (p : Mem UInt8) (x : UInt8) :
    loadLE (Function.update p i x) j k = loadLE p j k :=
  loadLE_congr fun l hl => Function.update_of_ne (by omega) x p

end Wnu.Memory
