import Mathlib.Data.List.Basic

/-! # Deterministic machines and their runs

A machine answers every input with an output and a next state. The rules here
carry a property of one step to whole runs, with or without a condition that
every step of the run meets.
-/

namespace Wnu.Runs

variable {σ ι ο : Type*} (m : σ → ι → ο × σ)

def run : σ → List ι → σ
  | s, [] => s
  | s, i :: is => run (m s i).2 is

/-- The inputs of a run, each with the state it met and the output it got. -/
def trace : σ → List ι → List (σ × ι × ο)
  | _, [] => []
  | s, i :: is => (s, i, (m s i).1) :: trace (m s i).2 is

/-- Every step of the run meets the condition in the state before it. -/
def Along (C : σ → ι → Prop) : σ → List ι → Prop
  | _, [] => True
  | s, i :: is => C s i ∧ Along C (m s i).2 is

@[simp] theorem run_nil (s : σ) : run m s [] = s := rfl
@[simp] theorem run_cons (s : σ) (i : ι) (is : List ι) :
    run m s (i :: is) = run m (m s i).2 is := rfl
@[simp] theorem trace_nil (s : σ) : trace m s [] = [] := rfl
@[simp] theorem trace_cons (s : σ) (i : ι) (is : List ι) :
    trace m s (i :: is) = (s, i, (m s i).1) :: trace m (m s i).2 is := rfl
@[simp] theorem along_nil (C : σ → ι → Prop) (s : σ) : Along m C s [] := trivial
@[simp] theorem along_cons (C : σ → ι → Prop) (s : σ) (i : ι) (is : List ι) :
    Along m C s (i :: is) ↔ C s i ∧ Along m C (m s i).2 is := Iff.rfl

theorem run_append (s : σ) (is js : List ι) :
    run m s (is ++ js) = run m (run m s is) js := by
  induction is generalizing s with
  | nil => rfl
  | cons i is ih => exact ih _

variable {m}

/-- What every step preserves, every run preserves. -/
theorem run_invariant {P : σ → Prop} (hstep : ∀ s i, P s → P (m s i).2)
    {s : σ} (h : P s) (is : List ι) : P (run m s is) := by
  induction is generalizing s with
  | nil => exact h
  | cons i is ih => exact ih (hstep s i h)

/-- What every step meeting a condition preserves, every run along the condition preserves. -/
theorem run_invariant_along {P : σ → Prop} {C : σ → ι → Prop}
    (hstep : ∀ s i, P s → C s i → P (m s i).2) {s : σ} (h : P s) {is : List ι}
    (hc : Along m C s is) : P (run m s is) := by
  induction is generalizing s with
  | nil => exact h
  | cons i is ih => exact ih (hstep s i h hc.1) hc.2

/-- A property that a step keeps exactly under a condition holds in every state of a run exactly if
every step of the run meets the condition. -/
theorem along_iff_forall_prefix {Q P : σ → Prop} {C : σ → ι → Prop}
    (hinv : ∀ s i, Q s → Q (m s i).2) (hstep : ∀ s i, Q s → P s → (P (m s i).2 ↔ C s i))
    {s : σ} (hq : Q s) (hp : P s) (is : List ι) :
    (∀ js, js <+: is → P (run m s js)) ↔ Along m C s is := by
  induction is generalizing s with
  | nil =>
    apply iff_of_true _ trivial
    intro js hjs
    rwa [List.prefix_nil.mp hjs]
  | cons i is ih =>
    rw [along_cons]
    constructor
    · intro hall
      have hp' : P (m s i).2 := hall [i] ⟨is, rfl⟩
      refine ⟨(hstep s i hq hp).mp hp', (ih (hinv s i hq) hp').mp fun js hjs => ?_⟩
      exact hall (i :: js) (List.cons_prefix_cons.mpr ⟨rfl, hjs⟩)
    · rintro ⟨hc, hrest⟩ js hjs
      have hp' : P (m s i).2 := (hstep s i hq hp).mpr hc
      cases js with
      | nil => exact hp
      | cons j js =>
        obtain ⟨rfl, htail⟩ := List.cons_prefix_cons.mp hjs
        exact (ih (hinv s j hq) hp').mpr hrest js htail

end Wnu.Runs
