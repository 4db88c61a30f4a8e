import Wnu.Memory.Packed

/-! # Stacks in memory

A stack grows downwards in memory, by words of eight bytes. What lies on it from the stack
pointer on is a list: a push puts a word in front, and a pop takes it away.
-/

namespace Wnu.Memory

variable {p q : Mem UInt8} {sp : ℕ} {v : UInt64} {ws : List UInt64}

def OnStack (p : Mem UInt8) : ℕ → List UInt64 → Prop
  | _, [] => True
  | sp, w :: ws => loadLE p sp 8 = w.toNat ∧ OnStack p (sp + 8) ws

theorem OnStack.congr (h : OnStack p sp ws)
    (hsame : ∀ a, sp ≤ a → a < sp + 8 * ws.length → q a = p a) : OnStack q sp ws := by
  induction ws generalizing sp with
  | nil => trivial
  | cons w ws ih =>
    rw [List.length_cons] at hsame
    obtain ⟨hword, hrest⟩ := h
    constructor
    · rw [loadLE_congr fun j hj => hsame (sp + j) (by omega) (by omega), hword]
    · exact ih hrest fun a ha ha' => hsame a (by omega) (by omega)

theorem OnStack.push (h : OnStack p (sp + 8) ws) (v : UInt64) :
    OnStack (storeLE p sp 8 v.toNat) sp (v :: ws) := by
  constructor
  · rw [loadLE_storeLE]
    exact Nat.mod_eq_of_lt v.toNat_lt
  · apply h.congr
    intro a ha _
    rw [storeLE_apply, if_neg (by omega)]

theorem OnStack.top (h : OnStack p sp (v :: ws)) : UInt64.ofNat (loadLE p sp 8) = v := by
  rw [h.1, UInt64.ofNat_toNat]

theorem OnStack.pop (h : OnStack p sp (v :: ws)) : OnStack p (sp + 8) ws := h.2

theorem OnStack.drop {vs : List UInt64} (h : OnStack p sp (vs ++ ws)) :
    OnStack p (sp + 8 * vs.length) ws := by
  induction vs generalizing sp with
  | nil => exact h
  | cons v vs ih =>
    have hrest := ih h.pop
    rwa [List.length_cons, Nat.mul_add_one, Nat.add_comm (8 * _), ← Nat.add_assoc]

end Wnu.Memory
