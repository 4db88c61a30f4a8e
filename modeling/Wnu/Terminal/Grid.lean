import Mathlib.Data.Fin.Basic
import Mathlib.Logic.Function.Basic

/-! # A character terminal

A grid of cells and a cursor on it. Printing past the last column moves to the
next line, and a line feed on the last row scrolls the grid up by one row. The
cursor is on the grid by its type.
-/

namespace Wnu

/-- A terminal with the given numbers of columns and rows; an unwritten cell is `none`. -/
structure Terminal (α : Type*) (cols rows : ℕ) where
  cell : Fin cols → Fin rows → Option α
  x : Fin cols
  y : Fin rows

variable {α : Type*} {cols rows : ℕ}

namespace Terminal

def get (t : Terminal α cols rows) (i j : ℕ) : Option α :=
  if h : i < cols ∧ j < rows then t.cell ⟨i, h.1⟩ ⟨j, h.2⟩ else none

def blank (hc : 0 < cols) (hr : 0 < rows) : Terminal α cols rows :=
  ⟨fun _ _ => none, ⟨0, hc⟩, ⟨0, hr⟩⟩

def set (t : Terminal α cols rows) (c : Option α) : Terminal α cols rows :=
  { t with cell := fun i j => if i = t.x ∧ j = t.y then c else t.cell i j }

def scroll (t : Terminal α cols rows) : Terminal α cols rows :=
  { t with cell := fun i j => t.get i (j + 1) }

def carriageReturn (t : Terminal α cols rows) : Terminal α cols rows :=
  { t with x := ⟨0, t.x.pos⟩ }

def lineFeed (t : Terminal α cols rows) : Terminal α cols rows :=
  if h : t.y + 1 < rows then { t.carriageReturn with y := ⟨t.y + 1, h⟩ }
  else t.carriageReturn.scroll

/-- Write a character and move right, to the next line after the last column. -/
def print (t : Terminal α cols rows) (c : α) : Terminal α cols rows :=
  if h : t.x + 1 < cols then { t.set (some c) with x := ⟨t.x + 1, h⟩ }
  else (t.set (some c)).lineFeed

/-- Move left and erase, not past the first column. -/
def backspace (t : Terminal α cols rows) : Terminal α cols rows :=
  if t.x.val = 0 then t
  else { t with x := ⟨t.x - 1, by omega⟩ : Terminal α cols rows }.set none

@[simp] theorem get_blank (hc : 0 < cols) (hr : 0 < rows) (i j : ℕ) :
    (blank hc hr : Terminal α cols rows).get i j = none := by
  simp [get, blank]

@[simp] theorem get_cell (t : Terminal α cols rows) (i : Fin cols) (j : Fin rows) :
    t.get i j = t.cell i j := dif_pos ⟨i.isLt, j.isLt⟩

theorem get_eq_none (t : Terminal α cols rows) {i j : ℕ} (h : ¬ (i < cols ∧ j < rows)) :
    t.get i j = none := dif_neg h

theorem get_set (t : Terminal α cols rows) (c : Option α) (i j : ℕ) :
    (t.set c).get i j = if i = t.x ∧ j = t.y then c else t.get i j := by
  by_cases h : i < cols ∧ j < rows
  · simp [get, set, h, Fin.ext_iff]
  · have hne : ¬ (i = t.x ∧ j = t.y) := fun ⟨hi, hj⟩ => h ⟨hi ▸ t.x.isLt, hj ▸ t.y.isLt⟩
    rw [if_neg hne, get_eq_none _ h, get_eq_none _ h]

theorem get_scroll (t : Terminal α cols rows) (i j : ℕ) : t.scroll.get i j = t.get i (j + 1) := by
  by_cases h : i < cols ∧ j < rows
  · simp [get, scroll, h]
  · rw [get_eq_none _ h, get_eq_none _ (by omega)]

@[simp] theorem get_carriageReturn (t : Terminal α cols rows) (i j : ℕ) :
    t.carriageReturn.get i j = t.get i j := rfl

theorem lineFeed_of_lt (t : Terminal α cols rows) (h : t.y + 1 < rows) :
    t.lineFeed = { t.carriageReturn with y := ⟨t.y + 1, h⟩ } := dif_pos h

theorem lineFeed_of_last (t : Terminal α cols rows) (h : ¬ t.y + 1 < rows) :
    t.lineFeed = t.carriageReturn.scroll := dif_neg h

end Terminal

end Wnu
