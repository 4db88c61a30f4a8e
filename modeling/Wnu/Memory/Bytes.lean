import Mathlib.Data.List.Basic
import Mathlib.Data.List.GetD
import Mathlib.Data.List.Range
import Mathlib.Logic.Function.Basic

/-! # Indexed memory

An array is read as a function of its index. A copying loop is the iterated
assignment it performs, and its result is described index by index. The window
of an array is the list of its first elements.
-/

namespace Wnu.Memory

variable {α : Type*}

abbrev Mem (α : Type*) := ℕ → α

/-- `for (i = 0; i < n; ++i) dst[off + i] = src[i];` -/
def copyLoop (dst : Mem α) (off : ℕ) (src : Mem α) : ℕ → Mem α
  | 0 => dst
  | n + 1 => Function.update (copyLoop dst off src n) (off + n) (src n)

def window (m : Mem α) (n : ℕ) : List α := (List.range n).map m

def ofList (s : List α) (d : α) : Mem α := fun i => s.getD i d

theorem copyLoop_apply (dst src : Mem α) (off n j : ℕ) :
    copyLoop dst off src n j = if off ≤ j ∧ j < off + n then src (j - off) else dst j := by
  induction n with
  | zero =>
    have h : ¬ (off ≤ j ∧ j < off + 0) := by omega
    simp only [copyLoop, h, if_false]
  | succ n ih =>
    rw [copyLoop, Function.update_apply, ih]
    by_cases hj : j = off + n
    · simp [hj]
    · have h : (off ≤ j ∧ j < off + (n + 1)) ↔ (off ≤ j ∧ j < off + n) := by omega
      simp only [hj, h, if_false]

@[simp] theorem length_window (m : Mem α) (n : ℕ) : (window m n).length = n := by simp [window]

@[simp] theorem window_zero (m : Mem α) : window m 0 = [] := rfl

theorem window_congr {m m' : Mem α} {n : ℕ} (h : ∀ i < n, m i = m' i) :
    window m n = window m' n :=
  List.map_congr_left fun i hi => h i (List.mem_range.mp hi)

theorem window_add (m : Mem α) (a b : ℕ) :
    window m (a + b) = window m a ++ window (fun i => m (a + i)) b := by
  simp [window, List.range_add, Function.comp_def]

theorem window_succ (m : Mem α) (n : ℕ) : window m (n + 1) = window m n ++ [m n] := window_add m n 1

theorem window_from_succ (m : Mem α) (i n : ℕ) :
    window (fun j => m (i + j)) (n + 1) = m i :: window (fun j => m (i + 1 + j)) n := by
  rw [Nat.add_comm n 1, window_add]
  simp [window_succ, Nat.add_assoc]

theorem dropLast_window (m : Mem α) (n : ℕ) : (window m n).dropLast = window m (n - 1) := by
  cases n with
  | zero => rfl
  | succ n => rw [window_succ, List.dropLast_concat, Nat.add_sub_cancel]

theorem window_update_of_le (m : Mem α) {n k : ℕ} (h : n ≤ k) (x : α) :
    window (Function.update m k x) n = window m n :=
  window_congr fun i hi => Function.update_of_ne (by omega) x m

theorem window_update_succ (m : Mem α) (n : ℕ) (x : α) :
    window (Function.update m n x) (n + 1) = window m n ++ [x] := by
  rw [window_succ, window_update_of_le m (Nat.le_refl n), Function.update_self]

theorem take_window (m : Mem α) (k n : ℕ) : (window m n).take k = window m (min k n) := by
  rw [window, ← List.map_take, List.take_range, window]

theorem window_ofList (s : List α) (d : α) : window (ofList s d) s.length = s := by
  apply List.ext_getElem
  · simp
  · intro i h _
    simp only [length_window] at h
    simp [window, ofList, h]

theorem window_copyLoop_zero (dst src : Mem α) (n : ℕ) :
    window (copyLoop dst 0 src n) n = window src n :=
  window_congr fun i hi => by rw [copyLoop_apply, if_pos (by omega), Nat.sub_zero]

theorem window_copyLoop (dst src : Mem α) (off n : ℕ) :
    window (copyLoop dst off src n) (off + n) = window dst off ++ window src n := by
  rw [window_add]
  congr 1
  · exact window_congr fun i hi => by rw [copyLoop_apply, if_neg (by omega)]
  · apply window_congr
    intro i hi
    rw [copyLoop_apply, if_pos (by omega)]
    congr 1
    omega

theorem copyLoop_ofList_append (dst : Mem α) (off : ℕ) (s r : List α) (d : α) :
    copyLoop (copyLoop dst off (ofList s d) s.length) (off + s.length) (ofList r d) r.length =
      copyLoop dst off (ofList (s ++ r) d) (s ++ r).length := by
  funext j
  rw [copyLoop_apply, copyLoop_apply, copyLoop_apply, List.length_append]
  by_cases hs : off ≤ j ∧ j < off + s.length
  · rw [if_neg (by omega), if_pos hs, if_pos (by omega)]
    exact (List.getD_append _ _ _ _ (by omega)).symm
  by_cases hr : off + s.length ≤ j ∧ j < off + s.length + r.length
  · rw [if_pos hr, if_pos (by omega), ofList, ofList, List.getD_append_right _ _ _ _ (by omega),
      Nat.sub_sub]
  · rw [if_neg hr, if_neg hs, if_neg (by omega)]

theorem window_copyLoop_ofList (dst : Mem α) (s : List α) (d : α) {n : ℕ} (h : s.length ≤ n) :
    ∃ r, window (copyLoop dst 0 (ofList s d) s.length) n = s ++ r := by
  obtain ⟨k, rfl⟩ := Nat.exists_eq_add_of_le h
  exact ⟨_, by rw [window_add, window_copyLoop_zero, window_ofList]⟩

end Wnu.Memory
