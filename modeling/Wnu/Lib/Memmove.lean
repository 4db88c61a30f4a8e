import Wnu.Memory.Bytes
import Wnu.Runs.Loops

/-! # Copying between overlapping ranges

Both ranges lie in one memory, so a byte that is read may have been written before. The
direction of the loop is chosen such that this does not happen: a copy to lower addresses
starts at the front and any other copy at the back.
-/

namespace Wnu.Lib

open Memory Runs

variable {α : Type*}

/-! ## Copying in one direction -/

/-- `d[i] = s[i];`, in one memory. -/
def moveElement (dst src i : ℕ) (m : Mem α) : Mem α := Function.update m (dst + i) (m (src + i))

/-- The elements from `lo` on and before `hi` have been copied from the first memory, and nothing
else has changed. -/
def Moved (m₀ : Mem α) (dst src lo hi : ℕ) (m : Mem α) : Prop :=
  ∀ a, m a = if dst + lo ≤ a ∧ a < dst + hi then m₀ (src + (a - dst)) else m₀ a

variable {m₀ m : Mem α} {dst src lo hi n : ℕ}

theorem Moved.start (m₀ : Mem α) (dst src k : ℕ) : Moved m₀ dst src k k m₀ := by
  intro a
  rw [if_neg (by omega)]

theorem Moved.append (h : Moved m₀ dst src 0 n m) (hlt : dst < src) :
    Moved m₀ dst src 0 (n + 1) (moveElement dst src n m) := by
  intro a
  have hread : m (src + n) = m₀ (src + n) := by rw [h, if_neg (by omega)]
  rw [moveElement, Function.update_apply, hread, h a]
  by_cases ha : a = dst + n
  · rw [if_pos ha, if_pos (by omega), ha, Nat.add_sub_cancel_left]
  · rw [if_neg ha]
    congr 1
    simp only [eq_iff_iff]
    omega

theorem Moved.prepend (h : Moved m₀ dst src (lo + 1) hi m) (hle : src ≤ dst) (hlo : lo < hi) :
    Moved m₀ dst src lo hi (moveElement dst src lo m) := by
  intro a
  have hread : m (src + lo) = m₀ (src + lo) := by rw [h, if_neg (by omega)]
  rw [moveElement, Function.update_apply, hread, h a]
  by_cases ha : a = dst + lo
  · rw [if_pos ha, if_pos (by omega), ha, Nat.add_sub_cancel_left]
  · rw [if_neg ha]
    congr 1
    simp only [eq_iff_iff]
    omega

/-! ## Both directions -/

/-- `memmove`: the pointer that it returns and the memory after it. -/
def memmove (dst src n : ℕ) (m : Mem UInt8) : ℕ × Mem UInt8 :=
  if dst < src then (dst, forLoop n (fun i m => moveElement dst src i m) m)
  else (dst, downLoop n (fun i m => moveElement dst src (i - 1) m) m)

theorem moved_memmove (dst src n : ℕ) (m : Mem UInt8) :
    Moved m dst src 0 n (memmove dst src n m).2 := by
  unfold memmove
  split
  · rename_i hlt
    exact forLoop_invariant (P := fun i => Moved m dst src 0 i) (.start m dst src 0)
      fun i _ m' h => h.append hlt
  · rename_i hle
    exact downLoop_invariant (P := fun i => Moved m dst src i n) (.start m dst src n)
      fun i hi m' h => h.prepend (Nat.le_of_not_lt hle) hi

/-- However the ranges overlap, the bytes of the source before the call are those of the
destination after it, and nothing else changes. -/
theorem memmove_eq (dst src n : ℕ) (m : Mem UInt8) :
    (memmove dst src n m).1 = dst ∧
      (∀ i < n, (memmove dst src n m).2 (dst + i) = m (src + i)) ∧
      ∀ a, a < dst ∨ dst + n ≤ a → (memmove dst src n m).2 a = m a := by
  have hmoved := moved_memmove dst src n m
  refine ⟨?_, fun i hi => ?_, fun a ha => ?_⟩
  · unfold memmove
    split <;> rfl
  · rw [hmoved, if_pos (by omega), Nat.add_sub_cancel_left]
  · rw [hmoved, if_neg (by omega)]

end Wnu.Lib
