import Mathlib.Data.Nat.Notation
import Mathlib.Data.Sum.Basic

/-! # Loops without a bound

A round of a loop goes on with a next state, leaves the loop with a result, or
faults. A loop ends in a result if finitely many rounds lead there without a fault,
and a potential that no round raises bounds what the result has cost.
-/

namespace Wnu.Runs

variable {σ ρ : Type*} {round : σ → Option (σ ⊕ ρ)} {s s' : σ} {r r' : ρ}

/-- The loop ends in the result, from the state. -/
inductive Exits (round : σ → Option (σ ⊕ ρ)) : σ → ρ → Prop
  | leave {s : σ} {r : ρ} (h : round s = some (.inr r)) : Exits round s r
  | again {s s' : σ} {r : ρ} (h : round s = some (.inl s')) (hr : Exits round s' r) :
      Exits round s r

theorem Exits.unique (h : Exits round s r) (h' : Exits round s r') : r = r' := by
  induction h with
  | leave h =>
    cases h' with
    | leave h' =>
      rw [h] at h'
      injection h' with he
      injection he
    | again h' =>
      rw [h] at h'
      injection h' with he
      cases he
  | again h _ ih =>
    cases h' with
    | leave h' =>
      rw [h] at h'
      injection h' with he
      cases he
    | again h' hr' =>
      rw [h] at h'
      injection h' with he
      injection he with he
      exact ih (he ▸ hr')

/-- What a potential bounds at the end of the last round, it bounds from the start. -/
theorem Exits.le_potential (φ : σ → ℕ) (cost : ρ → ℕ)
    (hround : ∀ s, ∀ x ∈ round s, Sum.elim φ cost x ≤ φ s) (h : Exits round s r) :
    cost r ≤ φ s := by
  induction h with
  | leave h => exact hround _ _ h
  | again h _ ih => exact Nat.le_trans ih (hround _ _ h)

end Wnu.Runs
