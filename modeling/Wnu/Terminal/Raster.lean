import Mathlib.Data.Nat.Basic
import Wnu.Runs.Loops
import Wnu.Terminal.Grid

/-! # Painting rectangles

A raster gives a colour for each point. Two nested loops that set points one at
a time paint a rectangle, and a terminal is drawn on a raster by giving each of
its cells a rectangle of its own.
-/

namespace Wnu

abbrev Raster (β : Type*) := ℕ → ℕ → β

namespace Raster

open Runs

variable {α β σ : Type*}

def plot (R : Raster β) (x y : ℕ) (c : β) : Raster β :=
  fun i j => if i = x ∧ j = y then c else R i j

/-- Set the points of a rectangle where the pattern has a colour. -/
def paint (R : Raster β) (x y w h : ℕ) (pattern : ℕ → ℕ → Option β) : Raster β :=
  fun i j =>
    if (x ≤ i ∧ i < x + w) ∧ (y ≤ j ∧ j < y + h) then (pattern (i - x) (j - y)).getD (R i j)
    else R i j

abbrev fill (R : Raster β) (x y w h : ℕ) (c : β) : Raster β := paint R x y w h fun _ _ => some c

@[simp] theorem paint_zero (R : Raster β) (x y w : ℕ) (pattern : ℕ → ℕ → Option β) :
    paint R x y w 0 pattern = R := by
  funext i j
  exact if_neg (by omega)

@[simp] theorem paint_zero_width (R : Raster β) (x y h : ℕ) (pattern : ℕ → ℕ → Option β) :
    paint R x y 0 h pattern = R := by
  funext i j
  exact if_neg (by omega)

theorem paint_succ_width (R : Raster β) (x y w : ℕ) (pattern : ℕ → ℕ → Option β) :
    paint R x y (w + 1) 1 pattern =
      (match pattern w 0 with
        | some c => plot (paint R x y w 1 pattern) (x + w) y c
        | none => paint R x y w 1 pattern) := by
  funext i j
  by_cases hp : i = x + w ∧ j = y
  · obtain ⟨rfl, rfl⟩ := hp
    cases hc : pattern w 0 <;> simp [paint, plot, hc]
  · have hiff : ((x ≤ i ∧ i < x + (w + 1)) ∧ (y ≤ j ∧ j < y + 1)) ↔
        ((x ≤ i ∧ i < x + w) ∧ (y ≤ j ∧ j < y + 1)) := by omega
    cases hc : pattern w 0 <;> simp only [paint, plot, hiff, hp, if_false]

theorem paint_succ (R : Raster β) (x y w h : ℕ) (pattern : ℕ → ℕ → Option β) :
    paint R x y w (h + 1) pattern =
      paint (paint R x y w h pattern) x (y + h) w 1 fun i _ => pattern i h := by
  funext i j
  by_cases hj : j = y + h
  · subst hj
    simp [paint]
  · have hout : ¬ (y + h ≤ j ∧ j < y + h + 1) := by omega
    have hiff : (y ≤ j ∧ j < y + (h + 1)) ↔ (y ≤ j ∧ j < y + h) := by omega
    simp only [paint, hout, hiff, and_false, if_false]

/-- Nested loops whose body sets the point given by the pattern, or nothing, paint
the rectangle. -/
theorem forLoop_paint (Shows : σ → Raster β → Prop) {x y w h : ℕ}
    {pattern : ℕ → ℕ → Option β} {body : ℕ → ℕ → σ → σ}
    (hbody : ∀ i < w, ∀ j < h, ∀ s R, Shows s R → Shows (body j i s)
      (match pattern i j with
        | some c => plot R (x + i) (y + j) c
        | none => R))
    {s : σ} {R : Raster β} (hs : Shows s R) :
    Shows (forLoop h (fun j => forLoop w (body j)) s) (paint R x y w h pattern) := by
  refine forLoop_invariant (P := fun k s => Shows s (paint R x y w k pattern)) (by simpa) ?_
  intro j hj s hs
  rw [paint_succ]
  refine forLoop_invariant
    (P := fun k s => Shows s
      (paint (paint R x y w j pattern) x (y + j) k 1 fun i _ => pattern i j)) (by simpa) ?_
  intro i hi s hs
  rw [paint_succ_width]
  exact hbody i hi j hj s _ hs

/-! ## Terminals on a raster -/

section Render

variable {cols rows : ℕ} (glyph : α → ℕ → ℕ → Bool) (w h : ℕ) (fg bg : β)

def cellColor (c : Option α) (i j : ℕ) : β :=
  match c with
  | some c => if glyph c i j then fg else bg
  | none => bg

def render (t : Terminal α cols rows) : Raster β :=
  fun i j => cellColor glyph fg bg (t.get (i / w) (j / h)) (i % w) (j % h)

theorem div_eq_iff_mem_cell {w i k : ℕ} (hw : 0 < w) :
    i / w = k ↔ k * w ≤ i ∧ i < k * w + w := by
  rw [Nat.div_eq_iff hw]
  omega

variable {glyph w h fg bg} (t : Terminal α cols rows)

theorem apply_cellColor {γ : Type*} (f : β → γ) (c : Option α) (i j : ℕ) :
    f (cellColor glyph fg bg c i j) = cellColor glyph (f fg) (f bg) c i j := by
  cases c with
  | none => rfl
  | some c => exact apply_ite f _ _ _

@[simp] theorem render_blank (hc : 0 < cols) (hr : 0 < rows) (i j : ℕ) :
    render glyph w h fg bg (Terminal.blank hc hr) i j = bg := by
  rw [render, Terminal.get_blank, cellColor]

theorem paint_cell (glyph : α → ℕ → ℕ → Bool) (fg bg : β) (t : Terminal α cols rows)
    (hw : 0 < w) (hh : 0 < h) (c : Option α) :
    paint (render glyph w h fg bg t) (t.x * w) (t.y * h) w h
        (fun i j => some (cellColor glyph fg bg c i j)) =
      render glyph w h fg bg (t.set c) := by
  funext i j
  have hi := div_eq_iff_mem_cell (i := i) (k := t.x) hw
  have hj := div_eq_iff_mem_cell (i := j) (k := t.y) hh
  simp only [paint, render, Terminal.get_set, ← hi, ← hj, Option.getD_some]
  by_cases hin : i / w = t.x ∧ j / h = t.y
  · have hmi : i - t.x * w = i % w := by rw [← hin.1, Nat.mod_eq_sub_div_mul]
    have hmj : j - t.y * h = j % h := by rw [← hin.2, Nat.mod_eq_sub_div_mul]
    simp only [hin, and_self, if_true, hmi, hmj]
  · simp only [hin, if_false]

theorem paint_fill (R : Raster β) (x y : ℕ) (c : α) :
    paint (fill R x y w h bg) x y w h (fun i j => if glyph c i j then some fg else none) =
      paint R x y w h fun i j => some (cellColor glyph fg bg (some c) i j) := by
  funext i j
  by_cases hin : (x ≤ i ∧ i < x + w) ∧ (y ≤ j ∧ j < y + h)
  · cases hc : glyph c (i - x) (j - y) <;> simp [paint, cellColor, hin, hc]
  · simp only [paint, hin, if_false]

/-- Moving the raster up by the height of a cell, with background coming in below,
draws the scrolled terminal: the rows that come in lie below the last full row of cells. -/
theorem render_scroll (hh : 0 < h) {height : ℕ} (hrows : rows * h ≤ height) (i j : ℕ) :
    render glyph w h fg bg t.scroll i j =
      if j < height - h then render glyph w h fg bg t i (j + h) else bg := by
  have hdiv : (j + h) / h = j / h + 1 := Nat.add_div_right j hh
  have hmod : (j + h) % h = j % h := Nat.add_mod_right j h
  split
  · simp only [render, Terminal.get_scroll, hdiv, hmod]
  · next hj =>
    have hout : ¬ (i / w < cols ∧ j / h + 1 < rows) := fun ⟨_, hr⟩ => by
      have hle : (j / h + 2) * h ≤ rows * h := Nat.mul_le_mul_right h (by omega)
      have hlt := Nat.lt_mul_div_succ j hh
      rw [Nat.mul_comm] at hlt
      have hsum : (j / h + 2) * h = (j / h + 1) * h + h := Nat.succ_mul _ _
      omega
    rw [render, Terminal.get_scroll, Terminal.get_eq_none _ hout, cellColor]

theorem render_cell {i j : ℕ} (hi : i < w) (hj : j < h) (cx : Fin cols) (cy : Fin rows) :
    render glyph w h fg bg t (cx * w + i) (cy * h + j) =
      cellColor glyph fg bg (t.cell cx cy) i j := by
  have hx : (cx * w + i) / w = cx ∧ (cx * w + i) % w = i := by
    rw [Nat.mul_comm, Nat.mul_add_div (by omega), Nat.div_eq_of_lt hi, Nat.mul_add_mod,
      Nat.mod_eq_of_lt hi]
    simp
  have hy : (cy * h + j) / h = cy ∧ (cy * h + j) % h = j := by
    rw [Nat.mul_comm, Nat.mul_add_div (by omega), Nat.div_eq_of_lt hj, Nat.mul_add_mod,
      Nat.mod_eq_of_lt hj]
    simp
  rw [render, hx.1, hx.2, hy.1, hy.2, Terminal.get_cell]

theorem render_margin (hw : 0 < w) (hh : 0 < h) {i j : ℕ} (hout : cols * w ≤ i ∨ rows * h ≤ j) :
    render glyph w h fg bg t i j = bg := by
  have hn : ¬ (i / w < cols ∧ j / h < rows) := fun ⟨hi, hj⟩ => by
    rw [Nat.div_lt_iff_lt_mul hw] at hi
    rw [Nat.div_lt_iff_lt_mul hh] at hj
    omega
  rw [render, Terminal.get_eq_none _ hn, cellColor]

end Render

end Raster

end Wnu
