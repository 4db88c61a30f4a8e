import Wnu.Console.LineInput
import Wnu.Console.Refinement

/-! # Everything that happens to the screen

What is typed is echoed, and the screen can be cleared. Both are simulated by the terminal
as well as output is.
-/

namespace Wnu.Console

open Raster

inductive Shown
  | char (c : UInt8)
  | clear
  deriving DecidableEq

def draw {cols rows : ℕ} (t : Terminal UInt8 cols rows) : Shown → Terminal UInt8 cols rows
  | .char c => receive t c
  | .clear => Terminal.blank t.x.pos t.y.pos

/-- The characters that `wnu_console_push_input` prints. -/
def echoOf (s : State) (c : UInt8) : List UInt8 :=
  if !s.display.ready then []
  else if s.input.lineReady then []
  else if c = lineEnd then [lineEnd]
  else if c = rubout then if s.input.length = 0 then [] else [rubout]
  else if s.input.length + 1 ≥ inputBufferSize then [] else [c]

variable {d : Display} {s s' : State} {t : Terminal UInt8 d.cols d.rows}

theorem Simulates.of_screen (h : Simulates d s t) (hdisplay : s'.display = s.display)
    (hvideo : s'.video = s.video) (hx : s'.cursorX = s.cursorX) (hy : s'.cursorY = s.cursorY) :
    Simulates d s' t :=
  ⟨hdisplay.trans h.display, hx.trans h.x, hy.trans h.y, hvideo.symm ▸ h.shows⟩

theorem Simulates.clear (hd : Bound d) (h : Simulates d s t) :
    Simulates d (clear s) (draw t .clear) := by
  obtain ⟨rfl, -, -, hs⟩ := h
  rw [Console.clear, if_neg (by simp [hd.ready])]
  refine ⟨rfl, rfl, rfl, ?_⟩
  apply (hs.drawRect hd.toDrawable 0 0 _ _ _).congr
  intro i hi j hj
  have hin : (0 ≤ i ∧ i < 0 + s.display.fb.width) ∧ (0 ≤ j ∧ j < 0 + s.display.fb.height) := by
    omega
  have hblank : picture s.display s.display.font.drawn (draw t .clear) i j =
      colorByte s.display.bg := render_blank t.x.pos t.y.pos i j
  rw [hblank]
  simp only [fill, paint, hin, and_self, if_true, Option.getD_some]

theorem Simulates.pushInput (hd : Bound d) (h : Simulates d s t) (c : UInt8) :
    Simulates d (pushInput s c) ((echoOf s c).foldl receive t) := by
  have hput (input : Input) (c : UInt8) :
      Simulates d (Console.putchar { s with input := input } c) (receive t c) := by
    apply Simulates.putchar hd
    exact h.of_screen rfl rfl rfl rfl
  rw [Console.pushInput, echoOf]
  split
  · exact h
  split
  · exact h
  split
  · exact (h.putchar hd lineEnd).of_screen rfl rfl rfl rfl
  split
  · split
    · exact h
    · exact hput _ rubout
  split
  · exact h
  · exact hput _ c

theorem Simulates.step {sys : System} (h : Simulates d sys.console t) :
    Simulates d (step sys).2.console t := by
  obtain ⟨console, ⟨place, buffer, size, copyLen, i⟩⟩ := sys
  cases place with
  | check | test | copy =>
    simp only [Console.step]
    split <;> exact h
  | _ => exact h.of_screen rfl rfl rfl rfl

end Wnu.Console
