import Mathlib.Algebra.BigOperators.Group.List.Basic
import Mathlib.Algebra.Ring.Nat
import Wnu.Runs.Machine

/-! # Gates

A gate holds requests back until it is opened. However many requests come before,
opening it lets one of them pass. Once it is open every request passes at once, and
opening it again lets nothing pass.
-/

namespace Wnu.Runs

inductive GateEvent
  | request
  | unlock
  | other
  deriving DecidableEq

structure Gate where
  opened : Bool
  pending : Bool
  deriving DecidableEq

namespace Gate

def shut : Gate := ⟨false, false⟩

def step (g : Gate) : GateEvent → ℕ × Gate
  | .request => if g.opened then (1, g) else (0, { g with pending := true })
  | .unlock => (if g.pending then 1 else 0, ⟨true, false⟩)
  | .other => (0, g)

def passed (g : Gate) (es : List GateEvent) : ℕ := ((trace step g es).map (·.2.2)).sum

@[simp] theorem passed_nil (g : Gate) : passed g [] = 0 := rfl

theorem passed_cons (g : Gate) (e : GateEvent) (es : List GateEvent) :
    passed g (e :: es) = (step g e).1 + passed (step g e).2 es := by
  simp [passed]

theorem passed_opened (es : List GateEvent) : passed ⟨true, false⟩ es = es.count .request := by
  induction es with
  | nil => rfl
  | cons e es ih =>
    rw [passed_cons]
    cases e <;> simp [step, ih, Nat.add_comm]

theorem passed_closed (pending : Bool) (es : List GateEvent) :
    passed ⟨false, pending⟩ es = (es.dropWhile (· ≠ .unlock)).count .request +
      if .unlock ∈ es ∧ (pending ∨ .request ∈ es.takeWhile (· ≠ .unlock)) then 1 else 0 := by
  induction es generalizing pending with
  | nil => simp
  | cons e es ih =>
    rw [passed_cons]
    cases e with
    | request => simp [step, ih]
    | unlock => simp [step, passed_opened, Nat.add_comm]
    | other => simp [step, ih]

theorem passed_shut (es : List GateEvent) :
    passed shut es = (es.dropWhile (· ≠ .unlock)).count .request +
      if .unlock ∈ es ∧ .request ∈ es.takeWhile (· ≠ .unlock) then 1 else 0 := by
  simp [shut, passed_closed]

end Gate

end Wnu.Runs
