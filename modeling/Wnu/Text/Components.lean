import Mathlib.Data.List.Basic
import Mathlib.Data.List.TakeWhile

/-! # Separated paths

A path over any alphabet is split at its last separator into a directory part
and a base. The parent of a path is its directory part, or the root when that
part is empty. In a set of paths closed under parents, a path with something
below it has a child.
-/

namespace Wnu.Components

variable {α : Type*} [DecidableEq α] (sep : α)

/-- The bytes after the last separator. -/
def base (p : List α) : List α := (p.reverse.takeWhile (· ≠ sep)).reverse

/-- The bytes before the last separator, none if there is no separator. -/
def dir (p : List α) : List α := ((p.reverse.dropWhile (· ≠ sep)).drop 1).reverse

/-- The directory part of a path, the root standing for an empty one. -/
def parent (p : List α) : List α := if dir sep p = [] then [sep] else dir sep p

/-- The path extends the other one past a separator. -/
def Below (a p : List α) : Prop := a ++ [sep] <+: p

variable {sep}

theorem forall_mem_reverse {b : List α} (h : sep ∉ b) :
    ∀ c ∈ b.reverse, decide (c ≠ sep) = true := by
  intro c hc
  simpa using ne_of_mem_of_not_mem (List.mem_reverse.mp hc) h

theorem takeWhile_reverse_append {d b : List α} (h : sep ∉ b) :
    (d ++ sep :: b).reverse.takeWhile (· ≠ sep) = b.reverse := by
  rw [List.reverse_append, List.reverse_cons, List.append_assoc,
    List.takeWhile_append_of_pos (forall_mem_reverse h)]
  simp

theorem dropWhile_reverse_append {d b : List α} (h : sep ∉ b) :
    (d ++ sep :: b).reverse.dropWhile (· ≠ sep) = sep :: d.reverse := by
  rw [List.reverse_append, List.reverse_cons, List.append_assoc,
    List.dropWhile_append_of_pos (forall_mem_reverse h)]
  simp

theorem base_append {d b : List α} (h : sep ∉ b) : base sep (d ++ sep :: b) = b := by
  rw [base, takeWhile_reverse_append h, List.reverse_reverse]

theorem dir_append {d b : List α} (h : sep ∉ b) : dir sep (d ++ sep :: b) = d := by
  rw [dir, dropWhile_reverse_append h]
  simp

theorem exists_split {p : List α} (h : sep ∈ p) : ∃ d b, sep ∉ b ∧ p = d ++ sep :: b := by
  induction p with
  | nil => simp at h
  | cons c p ih =>
    by_cases hp : sep ∈ p
    · obtain ⟨d, b, hb, rfl⟩ := ih hp
      exact ⟨c :: d, b, hb, rfl⟩
    · obtain rfl : sep = c := by simpa [hp] using h
      exact ⟨[], p, hp, rfl⟩

theorem parent_append {d b : List α} (h : sep ∉ b) (hd : d ≠ []) :
    parent sep (d ++ sep :: b) = d := by
  rw [parent, dir_append h, if_neg hd]

theorem parent_append_append (a d : List α) {b : List α} (h : sep ∉ b) :
    parent sep (a ++ sep :: (d ++ sep :: b)) = a ++ sep :: d := by
  rw [← List.cons_append, ← List.append_assoc]
  exact parent_append h (by simp)

theorem parent_cons {b : List α} (h : sep ∉ b) : parent sep (sep :: b) = [sep] := by
  rw [parent, show dir sep (sep :: b) = [] from dir_append (d := []) h, if_pos rfl]

omit [DecidableEq α] in
theorem below_iff {a p : List α} : Below sep a p ↔ ∃ r, p = a ++ sep :: r := by
  simp [Below, List.IsPrefix, eq_comm]

theorem below_of_parent_eq {a p : List α} (ha : a ≠ [sep]) (h : sep ∈ p)
    (hp : parent sep p = a) : Below sep a p := by
  obtain ⟨d, b, hb, rfl⟩ := exists_split h
  rw [parent, dir_append hb] at hp
  split at hp
  · exact absurd hp.symm ha
  · exact below_iff.mpr ⟨b, by rw [hp]⟩

/-- In a set of paths closed under parents, a path with something below it has a child. -/
theorem exists_child {S : List α → Prop} (hS : ∀ p, S p → p ≠ [sep] → S (parent sep p))
    {a p : List α} (ha : a ≠ []) (hp : S p) (hb : Below sep a p) :
    ∃ c, S c ∧ Below sep a c ∧ parent sep c = a := by
  obtain ⟨r, rfl⟩ := below_iff.mp hb
  -- the rest of the path loses one component at each step up
  induction h : r.length using Nat.strong_induction_on generalizing r with
  | _ n ih =>
    by_cases hr : sep ∈ r
    · obtain ⟨d, b, hsb, rfl⟩ := exists_split hr
      have hup := parent_append_append a d hsb
      have hroot : a ++ sep :: (d ++ sep :: b) ≠ [sep] := by
        intro he
        have hl := congrArg List.length he
        simp only [List.length_append, List.length_cons, List.length_nil] at hl
        omega
      refine ih d.length (by simp at h; omega) d ?_ (below_iff.mpr ⟨d, rfl⟩) rfl
      exact hup ▸ hS _ hp hroot
    · exact ⟨_, hp, hb, parent_append hr ha⟩

end Wnu.Components
