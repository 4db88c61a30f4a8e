import Mathlib.Data.List.Basic
import Mathlib.Order.Nat
import Wnu.Runs.Machine

/-! # Fair runs

A run without end is fair to some inputs if they come again and again. If each of them
brings the machine nearer to a goal, and the others do not take it away from there, then
the goal is reached. The machine may carry along what an observer makes of it.
-/

namespace Wnu.Runs

variable {σ ι ο θ α : Type*}

def upTo (is : ℕ → ι) (n : ℕ) : List ι := (List.range n).map is

theorem upTo_succ (is : ℕ → ι) (n : ℕ) : upTo is (n + 1) = upTo is n ++ [is n] := by
  rw [upTo, List.range_succ, List.map_append, upTo, List.map_singleton]

variable {m : σ → ι → ο × σ} {s : σ} {is : ℕ → ι} {kind : ι → Prop} {P Q : σ → Prop}

theorem run_upTo_succ (s : σ) (is : ℕ → ι) (n : ℕ) :
    run m s (upTo is (n + 1)) = (m (run m s (upTo is n)) (is n)).2 := by
  rw [upTo_succ, run_append, run_cons, run_nil]

variable [WellFoundedRelation α] {μ : σ → α}

/-- What an input does on the way to a goal: it gets there, or nearer, or not farther away. -/
structure Approaches (m : σ → ι → ο × σ) (kind : ι → Prop) (P Q : σ → Prop) (μ : σ → α) : Prop where
  nearer : ∀ s i, P s → kind i →
    Q (m s i).2 ∨ P (m s i).2 ∧ WellFoundedRelation.rel (μ (m s i).2) (μ s)
  other : ∀ s i, P s → ¬ kind i → Q (m s i).2 ∨ P (m s i).2 ∧ μ (m s i).2 = μ s

theorem Approaches.next (h : Approaches m kind P Q μ) {d n : ℕ} (hp : P (run m s (upTo is n)))
    (hkind : kind (is (n + d))) :
    ∃ k ≥ n, Q (run m s (upTo is k)) ∨ P (run m s (upTo is k)) ∧
      WellFoundedRelation.rel (μ (run m s (upTo is k))) (μ (run m s (upTo is n))) := by
  induction d generalizing n with
  | zero =>
    refine ⟨n + 1, Nat.le_succ n, ?_⟩
    rw [run_upTo_succ]
    exact h.nearer _ _ hp hkind
  | succ d ih =>
    have hstep : Q (run m s (upTo is (n + 1))) ∨ P (run m s (upTo is (n + 1))) ∧
        (μ (run m s (upTo is (n + 1))) = μ (run m s (upTo is n)) ∨
          WellFoundedRelation.rel (μ (run m s (upTo is (n + 1)))) (μ (run m s (upTo is n)))) := by
      rw [run_upTo_succ]
      by_cases hnow : kind (is n)
      · exact (h.nearer _ _ hp hnow).imp id fun hrest => ⟨hrest.1, .inr hrest.2⟩
      · exact (h.other _ _ hp hnow).imp id fun hrest => ⟨hrest.1, .inl hrest.2⟩
    rcases hstep with hq | ⟨hp', hsame | hless⟩
    · exact ⟨n + 1, Nat.le_succ n, .inl hq⟩
    · rw [← Nat.add_assoc, Nat.add_right_comm] at hkind
      obtain ⟨k, hk, hreach⟩ := ih hp' hkind
      rw [hsame] at hreach
      exact ⟨k, Nat.le_of_succ_le hk, hreach⟩
    · exact ⟨n + 1, Nat.le_succ n, .inr ⟨hp', hless⟩⟩

def observed (m : σ → ι → ο × σ) (obs : θ → σ × ι × ο → θ) (s : σ × θ) (i : ι) : ο × (σ × θ) :=
  ((m s.1 i).1, ((m s.1 i).2, obs s.2 (s.1, i, (m s.1 i).1)))

end Wnu.Runs
