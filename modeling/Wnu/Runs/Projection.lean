import Wnu.Runs.Machine

/-! # Parts of a machine

A step of a machine may give several inputs to a smaller one that it contains. A run of the
whole is then a run of the part, on everything that the steps have given to it. The same
holds of a queue that the steps take from and add to.
-/

namespace Wnu.Runs

variable {σ ι ο τ κ π : Type*}

theorem trace_append (m : σ → ι → ο × σ) (s : σ) (is js : List ι) :
    trace m s (is ++ js) = trace m s is ++ trace m (run m s is) js := by
  induction is generalizing s with
  | nil => rfl
  | cons i is ih => rw [List.cons_append, trace_cons, ih, trace_cons, List.cons_append, run_cons]

def given (m : σ → ι → ο × σ) (give : σ → ι → List κ) (s : σ) (is : List ι) : List κ :=
  (trace m s is).flatMap fun e => give e.1 e.2.1

@[simp] theorem given_nil (m : σ → ι → ο × σ) (give : σ → ι → List κ) (s : σ) :
    given m give s [] = [] := rfl

theorem given_cons (m : σ → ι → ο × σ) (give : σ → ι → List κ) (s : σ) (i : ι) (is : List ι) :
    given m give s (i :: is) = give s i ++ given m give (m s i).2 is := by
  rw [given, trace_cons, List.flatMap_cons, given]

theorem given_append (m : σ → ι → ο × σ) (give : σ → ι → List κ) (s : σ) (is js : List ι) :
    given m give s (is ++ js) = given m give s is ++ given m give (run m s is) js := by
  rw [given, trace_append, List.flatMap_append, given, given]

variable {m : σ → ι → ο × σ} {n : τ → κ → π × τ} {view : σ → τ} {give : σ → ι → List κ}
  {Q : σ → Prop}

/-- If every step moves the part by what it gives to it, every run does. The steps may rely on an
invariant of the whole. -/
theorem view_run (hinv : ∀ s i, Q s → Q (m s i).2)
    (hstep : ∀ s i, Q s → view (m s i).2 = run n (view s) (give s i)) {s : σ} (hs : Q s)
    (is : List ι) : view (run m s is) = run n (view s) (given m give s is) := by
  induction is generalizing s with
  | nil => rfl
  | cons i is ih =>
    rw [run_cons, given_cons, run_append, ih (hinv s i hs), hstep s i hs]

/-- If every step takes from the front of a queue and adds at its end, every run does. -/
theorem queue_run {queue : σ → List κ} {taken added : σ → ι → List κ}
    (hinv : ∀ s i, Q s → Q (m s i).2)
    (hstep : ∀ s i, Q s → taken s i ++ queue (m s i).2 = queue s ++ added s i) {s : σ} (hs : Q s)
    (is : List ι) :
    given m taken s is ++ queue (run m s is) = queue s ++ given m added s is := by
  induction is generalizing s with
  | nil => simp
  | cons i is ih =>
    rw [given_cons, given_cons, run_cons, List.append_assoc, ih (hinv s i hs),
      ← List.append_assoc, hstep s i hs, List.append_assoc]

end Wnu.Runs
