import Wnu.Console.Pixels

/-! # The console as a character terminal

Output on a bound console simulates a terminal with one cell for each full
rectangle of the size of a glyph: the framebuffer shows the picture of the
terminal after every character.
-/

namespace Wnu.Console

open Memory Runs Raster

def receive {cols rows : ℕ} (t : Terminal UInt8 cols rows) (c : UInt8) :
    Terminal UInt8 cols rows :=
  if c = '\n'.toUInt8 then t.lineFeed
  else if c = '\r'.toUInt8 then t.carriageReturn
  else if c = 8 then t.backspace
  else if c = '\t'.toUInt8 then forLoop 4 (fun _ t => t.print ' '.toUInt8) t
  else t.print c

def picture (d : Display) (bit : UInt8 → ℕ → ℕ → Bool) {cols rows : ℕ}
    (t : Terminal UInt8 cols rows) : Raster (Mem UInt8) :=
  render bit d.font.width.toNat d.font.height.toNat (colorByte d.fg) (colorByte d.bg) t

structure Bound (d : Display) : Prop extends Drawable d where
  width_pos : 0 < d.font.width.toNat
  height_pos : 0 < d.font.height.toNat
  cols_le : d.cols * d.font.width.toNat ≤ d.fb.width
  rows_le : d.rows * d.font.height.toNat ≤ d.fb.height

/-- The console is in the state of a terminal: same cursor, and its picture on the screen. -/
structure Simulates (d : Display) (s : State) (t : Terminal UInt8 d.cols d.rows) : Prop where
  display : s.display = d
  x : s.cursorX = t.x
  y : s.cursorY = t.y
  shows : Shows d s.video (picture d d.font.drawn t)

variable {d : Display} {s : State} {t : Terminal UInt8 d.cols d.rows}

/-! ## One character -/

theorem Simulates.carriageReturn (h : Simulates d s t) :
    Simulates d { s with cursorX := 0 } t.carriageReturn :=
  ⟨h.display, rfl, h.y, h.shows⟩

theorem Simulates.newline (hd : Bound d) (h : Simulates d s t) :
    Simulates d (newline s) t.lineFeed := by
  obtain ⟨rfl, hx, hy, hs⟩ := h
  have hrow := t.y.isLt
  by_cases hlt : t.y + 1 < s.display.rows
  · have hn : Console.newline s = { s with cursorX := 0, cursorY := s.cursorY + 1 } :=
      if_neg (by simp only [hy]; omega)
    rw [hn, t.lineFeed_of_lt hlt]
    exact ⟨rfl, rfl, congrArg (· + 1) hy, hs⟩
  · have hn : Console.newline s = { s with
        cursorX := 0, video := scroll s.display s.video, cursorY := s.display.rows - 1,
        scrolls := s.scrolls + 1 } :=
      if_pos (by simp only [hy]; omega)
    have hh : s.display.font.height.toNat ≤ s.display.fb.height := by
      have hle := Nat.mul_le_mul_right s.display.font.height.toNat (Fin.pos t.y)
      have := hd.rows_le
      omega
    rw [hn, t.lineFeed_of_last hlt]
    refine ⟨rfl, rfl, ?_, (hs.scroll hd.toDrawable hh).congr fun i _ j _ => ?_⟩
    · simp only [Terminal.scroll, Terminal.carriageReturn]
      omega
    · exact (render_scroll t.carriageReturn hd.height_pos hd.rows_le i j).symm

theorem Simulates.backspace (hd : Bound d) (h : Simulates d s t) :
    Simulates d (backspace s) t.backspace := by
  obtain ⟨rfl, hx, hy, hs⟩ := h
  by_cases h0 : t.x.val = 0
  · have hb : Console.backspace s = s := if_pos (hx.trans h0)
    rw [hb, Terminal.backspace, if_pos h0]
    exact ⟨rfl, hx, hy, hs⟩
  · have hb : Console.backspace s = { s with
        cursorX := s.cursorX - 1
        video := clearCell s.display (s.cursorX - 1) s.cursorY s.video } := if_neg (hx ▸ h0)
    rw [hb, Terminal.backspace, if_neg h0]
    refine ⟨rfl, congrArg (· - 1) hx, hy, ?_⟩
    have hc := hs.clearCell hd.toDrawable (s.cursorX - 1) s.cursorY
    rw [hx, hy] at hc ⊢
    have hcell := paint_cell s.display.font.drawn (colorByte s.display.fg) (colorByte s.display.bg)
      { t with x := ⟨t.x - 1, by omega⟩ } hd.width_pos hd.height_pos none
    exact hc.congr fun i _ j _ => congrFun (congrFun hcell i) j

theorem Simulates.printChar (hd : Bound d) (h : Simulates d s t) (c : UInt8) :
    Simulates d (printChar s c) (t.print c) := by
  obtain ⟨rfl, hx, hy, hs⟩ := h
  have hset : Shows s.display (drawChar s.display s.cursorX s.cursorY c s.video)
      (picture s.display s.display.font.drawn (t.set (some c))) := by
    have hc := hs.drawChar hd.toDrawable s.cursorX s.cursorY c
    rw [hx, hy] at hc ⊢
    exact hc.congr fun i _ j _ => congrFun (congrFun
      (paint_cell _ _ _ t hd.width_pos hd.height_pos _) i) j
  by_cases hlt : t.x + 1 < s.display.cols
  · have hp : Console.printChar s c = { s with
        video := drawChar s.display s.cursorX s.cursorY c s.video, cursorX := s.cursorX + 1 } :=
      if_neg (by simp only [hx]; omega)
    rw [hp, Terminal.print, dif_pos hlt]
    exact ⟨rfl, congrArg (· + 1) hx, hy, hset⟩
  · -- the column past the last one is overwritten by `newline` before it is read
    have hp : Console.printChar s c = Console.newline { s with
        video := drawChar s.display s.cursorX s.cursorY c s.video } :=
      if_pos (by simp only [hx]; omega)
    have h' : Simulates s.display
        { s with video := drawChar s.display s.cursorX s.cursorY c s.video }
        (t.set (some c)) := ⟨rfl, hx, hy, hset⟩
    rw [hp, Terminal.print, dif_neg hlt]
    exact h'.newline hd

theorem Simulates.putchar (hd : Bound d) (h : Simulates d s t) (c : UInt8) :
    Simulates d (putchar s c) (receive t c) := by
  have hready : s.display.ready = true := h.display ▸ hd.ready
  simp only [Console.putchar, hready, Bool.not_true, Bool.false_eq_true, if_false, receive]
  split
  · exact h.newline hd
  split
  · exact h.carriageReturn
  split
  · exact h.backspace hd
  split
  · have hp {s t} (h : Simulates d s t) :
        Simulates d (Console.printChar s ' '.toUInt8) (t.print ' '.toUInt8) :=
      h.printChar hd _
    exact hp (hp (hp (hp h)))
  · exact h.printChar hd c

theorem simulates_foldl_putchar (hd : Bound d) (h : Simulates d s t) (cs : List UInt8) :
    Simulates d (cs.foldl putchar s) (cs.foldl receive t) := by
  induction cs generalizing s t with
  | nil => exact h
  | cons c cs ih => exact ih (h.putchar hd c)

/-! ## Binding -/

/-- The display that binding a framebuffer and a font gives. -/
def boundDisplay (fb : Geometry) (font : Font) : Display where
  fb := fb
  font := font
  cols := fb.width / font.width.toNat
  rows := fb.height / font.height.toNat
  fg := makeColor fb 255 255 255
  bg := makeColor fb 0 0 0
  ready := true

/-- A framebuffer that has room for a glyph, in a depth and pitch that can be drawn on. -/
structure Usable (fb : Geometry) (font : FontShape) : Prop where
  width_le : font.width.toNat ≤ fb.width
  height_le : font.height.toNat ≤ fb.height
  depth : fb.bytesPerPixel = 3 ∨ fb.bytesPerPixel = 4
  pitch : fb.width * fb.bytesPerPixel ≤ fb.pitch

/-- A font whose glyphs are not empty, have room for their rows of bits, and include `'?'`. -/
structure FontShape.WellFormed (font : FontShape) : Prop where
  width_ne : font.width ≠ 0
  height_ne : font.height ≠ 0
  glyphs : 63 < font.glyphCount.toNat
  size : font.height.toNat * ((font.width.toNat + 7) / 8) ≤ font.glyphSize.toNat

variable {fb : Framebuffer} {font : Font}

theorem FontShape.WellFormed.width_pos {font : FontShape} (hf : font.WellFormed) :
    0 < font.width.toNat :=
  Nat.pos_of_ne_zero fun h => hf.width_ne (UInt32.toNat_inj.mp h)

theorem FontShape.WellFormed.height_pos {font : FontShape} (hf : font.WellFormed) :
    0 < font.height.toNat :=
  Nat.pos_of_ne_zero fun h => hf.height_ne (UInt32.toNat_inj.mp h)

theorem bound_boundDisplay (hf : font.toFontShape.WellFormed)
    (hu : Usable fb.toGeometry font.toFontShape) :
    Bound (boundDisplay fb.toGeometry font) where
  ready := rfl
  depth := hu.depth
  pitch := hu.pitch
  width_pos := hf.width_pos
  height_pos := hf.height_pos
  cols_le := Nat.div_mul_le_self _ _
  rows_le := Nat.div_mul_le_self _ _

theorem cols_pos (hf : font.toFontShape.WellFormed) (hu : Usable fb.toGeometry font.toFontShape) :
    0 < (boundDisplay fb.toGeometry font).cols :=
  Nat.div_pos hu.width_le hf.width_pos

theorem rows_pos (hf : font.toFontShape.WellFormed) (hu : Usable fb.toGeometry font.toFontShape) :
    0 < (boundDisplay fb.toGeometry font).rows :=
  Nat.div_pos hu.height_le hf.height_pos

theorem bind_eq (hf : font.toFontShape.WellFormed)
    (hu : Usable fb.toGeometry font.toFontShape) (s : State) :
    bind s (some fb) (some font) =
      { display := boundDisplay fb.toGeometry font, video := ⟨fb.base, []⟩,
        cursorX := 0, cursorY := 0,
        input := ⟨Function.update s.input.buffer 0 0, 0, false⟩, scrolls := s.scrolls } := by
  have hc : fb.width / font.width.toNat ≠ 0 := (cols_pos hf hu).ne'
  have hr : fb.height / font.height.toNat ≠ 0 := (rows_pos hf hu).ne'
  simp only [bind, hf.width_ne, hf.height_ne, hc, hr, or_self, if_false, boundDisplay]

/-- A bound and cleared console is in the state of a blank terminal. -/
theorem simulates_clear_bind (hf : font.toFontShape.WellFormed)
    (hu : Usable fb.toGeometry font.toFontShape) (s : State) :
    Simulates (boundDisplay fb.toGeometry font) (clear (bind s (some fb) (some font)))
      (Terminal.blank (cols_pos hf hu) (rows_pos hf hu)) := by
  have hd := bound_boundDisplay hf hu
  rw [bind_eq hf hu, clear, if_neg (by simp [boundDisplay])]
  refine ⟨rfl, rfl, rfl, ?_⟩
  apply ((shows_self fb.base).drawRect hd.toDrawable 0 0 _ _ _).congr
  intro i hi j hj
  have hin : (0 ≤ i ∧ i < 0 + fb.width) ∧ (0 ≤ j ∧ j < 0 + fb.height) := by
    simp only [boundDisplay] at hi hj
    omega
  rw [picture, render_blank]
  simp only [fill, paint, boundDisplay, hin, and_self, if_true, Option.getD_some]

end Wnu.Console
