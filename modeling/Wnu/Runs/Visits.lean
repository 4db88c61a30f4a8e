import Mathlib.Data.List.Basic

/-! # Nested loops

A loop over a list may be left from its body. Nested loops are one loop over the tuples of
what they visit, and they visit them in lexicographic order.
-/

namespace Wnu.Runs

variable {σ α β γ : Type*}

/-- `for (x in xs) { … }`, where the body says whether the loop goes on. -/
def forEach (body : α → σ → Bool × σ) : List α → σ → Bool × σ
  | [], s => (true, s)
  | x :: xs, s =>
    match body x s with
    | (true, s) => forEach body xs s
    | (false, s) => (false, s)

theorem forEach_append (body : α → σ → Bool × σ) (xs ys : List α) (s : σ) :
    forEach body (xs ++ ys) s =
      match forEach body xs s with
      | (true, s) => forEach body ys s
      | (false, s) => (false, s) := by
  induction xs generalizing s with
  | nil => rfl
  | cons x xs ih =>
    rw [List.cons_append, forEach, forEach]
    rcases body x s with ⟨_ | _, s⟩
    · rfl
    · exact ih s

theorem forEach_map (f : α → β) (body : β → σ → Bool × σ) (xs : List α) :
    forEach body (xs.map f) = forEach (fun x => body (f x)) xs := by
  funext s
  induction xs generalizing s with
  | nil => rfl
  | cons x xs ih =>
    rw [List.map_cons, forEach, forEach]
    rcases body (f x) s with ⟨_ | _, s⟩
    · rfl
    · exact ih s

theorem forEach_flatMap (f : α → List β) (body : β → σ → Bool × σ) (xs : List α) :
    forEach body (xs.flatMap f) = forEach (fun x => forEach body (f x)) xs := by
  funext s
  induction xs generalizing s with
  | nil => rfl
  | cons x xs ih =>
    rw [List.flatMap_cons, forEach_append, forEach]
    rcases forEach body (f x) s with ⟨_ | _, s⟩
    · rfl
    · exact ih s

theorem forEach_filter {p : α → Bool} {body : α → σ → Bool × σ} {xs : List α}
    (hskip : ∀ x ∈ xs, p x = false → ∀ s, body x s = (true, s)) (s : σ) :
    forEach body (xs.filter p) s = forEach body xs s := by
  induction xs generalizing s with
  | nil => rfl
  | cons x xs ih =>
    have hrest := ih fun y hy => hskip y (List.mem_cons_of_mem x hy)
    cases hx : p x with
    | false =>
      rw [List.filter_cons_of_neg (by simp [hx]), forEach, hskip x List.mem_cons_self hx]
      exact hrest s
    | true =>
      rw [List.filter_cons_of_pos hx, forEach, forEach]
      rcases body x s with ⟨_ | _, s⟩
      · rfl
      · exact hrest s

theorem findSome?_flatMap (f : α → List β) (g : β → Option γ) (xs : List α) :
    (xs.flatMap f).findSome? g = xs.findSome? fun x => (f x).findSome? g := by
  induction xs with
  | nil => rfl
  | cons x xs ih =>
    rw [List.flatMap_cons, List.findSome?_append, ih, List.findSome?_cons]
    cases (f x).findSome? g <;> rfl

theorem pairwise_lex_flatMap {r : α → α → Prop} {s : β → β → Prop} {xs : List α}
    {ys : α → List β} (hxs : xs.Pairwise r) (hys : ∀ x ∈ xs, (ys x).Pairwise s) :
    (xs.flatMap fun x => (ys x).map (Prod.mk x)).Pairwise (Prod.Lex r s) := by
  rw [List.pairwise_flatMap]
  constructor
  · intro x hx
    rw [List.pairwise_map]
    exact (hys x hx).imp fun h => .right x h
  · apply hxs.imp
    rintro x x' hlt p hp p' hp'
    obtain ⟨y, -, rfl⟩ := List.mem_map.mp hp
    obtain ⟨y', -, rfl⟩ := List.mem_map.mp hp'
    exact .left y y' hlt

/-- What a search finds in a sorted list is the first element that it may be found at. -/
theorem findSome?_first {r : α → α → Prop} {g : α → Option γ} {xs : List α} {b : γ}
    (hxs : xs.Pairwise r) (h : xs.findSome? g = some b) :
    ∃ x ∈ xs, g x = some b ∧ ∀ y ∈ xs, g y ≠ none → y = x ∨ r x y := by
  obtain ⟨before, x, after, rfl, hx, hnone⟩ := List.findSome?_eq_some_iff.mp h
  refine ⟨x, List.mem_append_right before List.mem_cons_self, hx, fun y hy hfound => ?_⟩
  rcases List.mem_append.mp hy with hy | hy
  · exact absurd (hnone y hy) hfound
  rcases List.mem_cons.mp hy with hy | hy
  · exact .inl hy
  · exact .inr (List.rel_of_pairwise_cons (List.pairwise_append.mp hxs).2.1 hy)

end Wnu.Runs
