import Mathlib.Data.Nat.Notation

/-! # Counting loops

A loop that counts from zero applies its body once for each index, and one that counts
down applies it in the other order. What holds before the loop and is carried from one
index to the next holds after it.
-/

namespace Wnu.Runs

variable {σ : Type*}

/-- `for (i = 0; i < n; ++i) s = body(i, s);` -/
def forLoop (n : ℕ) (body : ℕ → σ → σ) (s : σ) : σ :=
  match n with
  | 0 => s
  | n + 1 => body n (forLoop n body s)

@[simp] theorem forLoop_zero (body : ℕ → σ → σ) (s : σ) : forLoop 0 body s = s := rfl

theorem forLoop_succ (n : ℕ) (body : ℕ → σ → σ) (s : σ) :
    forLoop (n + 1) body s = body n (forLoop n body s) := rfl

theorem forLoop_invariant {P : ℕ → σ → Prop} {n : ℕ} {body : ℕ → σ → σ} {s : σ} (h : P 0 s)
    (hbody : ∀ i < n, ∀ s, P i s → P (i + 1) (body i s)) : P n (forLoop n body s) := by
  induction n with
  | zero => exact h
  | succ n ih =>
    exact hbody n (Nat.lt_succ_self n) _ (ih fun i hi => hbody i (Nat.lt_succ_of_lt hi))

/-- `for (i = n; i > 0; --i) s = body(i, s);` -/
def downLoop (n : ℕ) (body : ℕ → σ → σ) (s : σ) : σ :=
  match n with
  | 0 => s
  | n + 1 => downLoop n body (body (n + 1) s)

theorem downLoop_invariant {P : ℕ → σ → Prop} {n : ℕ} {body : ℕ → σ → σ} {s : σ} (h : P n s)
    (hbody : ∀ i < n, ∀ s, P (i + 1) s → P i (body (i + 1) s)) : P 0 (downLoop n body s) := by
  induction n generalizing s with
  | zero => exact h
  | succ n ih =>
    apply ih
    · exact hbody n (Nat.lt_succ_self n) s h
    · exact fun i hi => hbody i (Nat.lt_succ_of_lt hi)

end Wnu.Runs
