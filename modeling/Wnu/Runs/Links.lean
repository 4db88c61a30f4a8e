import Mathlib.Algebra.Order.Group.Multiset

/-! # Links that reorder and lose

A link hands on what it is given in any order, each thing at most once, and may lose it.
Whatever has entered it is in flight, has arrived or is lost.
-/

namespace Wnu.Runs

/-- A link, with what has become of the messages that have entered it. -/
structure Link (μ : Type*) where
  entered : Multiset μ
  inFlight : Multiset μ
  arrived : Multiset μ
  lost : Multiset μ
  account : entered = inFlight + arrived + lost

namespace Link

variable {μ : Type*}

def idle : Link μ := ⟨0, 0, 0, 0, rfl⟩

def put (l : Link μ) (ms : List μ) : Link μ where
  entered := l.entered + ms
  inFlight := l.inFlight + ms
  arrived := l.arrived
  lost := l.lost
  account := by
    rw [l.account, add_right_comm (l.inFlight + l.arrived), add_right_comm l.inFlight]

variable [DecidableEq μ]

def arrive (l : Link μ) (m : μ) (h : m ∈ l.inFlight) : Link μ where
  entered := l.entered
  inFlight := l.inFlight.erase m
  arrived := m ::ₘ l.arrived
  lost := l.lost
  account := by
    rw [l.account, Multiset.add_cons, ← Multiset.cons_add, Multiset.cons_erase h]

def drop (l : Link μ) (m : μ) (h : m ∈ l.inFlight) : Link μ where
  entered := l.entered
  inFlight := l.inFlight.erase m
  arrived := l.arrived
  lost := m ::ₘ l.lost
  account := by
    rw [l.account, Multiset.add_cons, ← Multiset.cons_add, ← Multiset.cons_add,
      Multiset.cons_erase h]

section Counts

omit [DecidableEq μ]

variable {l : Link μ} {m : μ}

theorem countP_entered (p : μ → Prop) [DecidablePred p] (l : Link μ) : l.entered.countP p =
    l.inFlight.countP p + l.arrived.countP p + l.lost.countP p := by
  rw [l.account, Multiset.countP_add, Multiset.countP_add]

theorem mem_entered_of_inFlight (h : m ∈ l.inFlight) : m ∈ l.entered := by
  rw [l.account, Multiset.mem_add, Multiset.mem_add]
  exact .inl (.inl h)

theorem mem_entered_put {ms : List μ} : m ∈ (l.put ms).entered ↔ m ∈ l.entered ∨ m ∈ ms := by
  rw [put, Multiset.mem_add, Multiset.mem_coe]

theorem countP_entered_put (p : μ → Prop) [DecidablePred p] (l : Link μ) (ms : List μ) :
    (l.put ms).entered.countP p = l.entered.countP p + ms.countP p := by
  rw [put, Multiset.countP_add, Multiset.coe_countP]

theorem card_inFlight_put (l : Link μ) (ms : List μ) :
    (l.put ms).inFlight.card = l.inFlight.card + ms.length := by
  rw [put, Multiset.card_add, Multiset.coe_card]

end Counts

variable {l : Link μ} {m : μ}

theorem count_entered_put (l : Link μ) (ms : List μ) (m : μ) :
    (l.put ms).entered.count m = l.entered.count m + (ms : Multiset μ).count m := by
  rw [put, Multiset.count_add]

theorem count_arrived_arrive {m' : μ} (h : m ∈ l.inFlight) :
    (l.arrive m h).arrived.count m' = l.arrived.count m' + if m' = m then 1 else 0 := by
  rw [arrive, Multiset.count_cons]

theorem countP_arrived_arrive (p : μ → Prop) [DecidablePred p] (h : m ∈ l.inFlight) :
    (l.arrive m h).arrived.countP p = l.arrived.countP p + if p m then 1 else 0 := by
  rw [arrive, Multiset.countP_cons]

theorem card_inFlight_arrive (h : m ∈ l.inFlight) :
    (l.arrive m h).inFlight.card + 1 = l.inFlight.card := by
  have hpos : 0 < l.inFlight.card := Multiset.card_pos_iff_exists_mem.mpr ⟨m, h⟩
  rw [arrive, Multiset.card_erase_of_mem h]
  exact Nat.sub_add_cancel hpos

end Link

end Wnu.Runs
