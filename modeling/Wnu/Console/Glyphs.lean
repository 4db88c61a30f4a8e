import Mathlib.Algebra.Group.Nat.Defs
import Wnu.Console.Refinement

/-! # Glyphs in the font

A bound console shows the glyphs of the font's table as long as every glyph that
a character can select lies within 32 bits of its start: the address of a glyph
is a 32-bit product. A larger table shows the wrong glyph.
-/

namespace Wnu.Console

open Memory Runs Raster

def FontShape.glyphOf (font : FontShape) (c : UInt8) : ℕ :=
  if c.toNat < font.glyphCount.toNat then c.toNat else '?'.toNat

/-- The bits of the glyph of a character: rows of whole bytes, the highest bit first. -/
def Font.tableBit (font : Font) (c : UInt8) (x y : ℕ) : Bool :=
  (font.data (font.glyphOf c * font.glyphSize.toNat +
    (y * ((font.width.toNat + 7) / 8) + x / 8)) &&& ((0x80 : UInt8) >>> (x % 8).toUInt8)) ≠ 0

/-- The last glyph that a character can select starts within 32 bits. -/
def FontShape.Addressable (font : FontShape) : Prop :=
  (min font.glyphCount.toNat 256 - 1) * font.glyphSize.toNat < 2 ^ 32

/-- The console shows a terminal in the glyphs of its font: the cursor is the terminal's,
each cell shows its glyph or background, the rest is background, and no row outside the
framebuffer was accessed. -/
structure Refines (d : Display) (s : State) (t : Terminal UInt8 d.cols d.rows) : Prop where
  cursorX : s.cursorX = t.x ∧ s.cursorX < d.cols
  cursorY : s.cursorY = t.y ∧ s.cursorY < d.rows
  cells : ∀ (cx : Fin d.cols) (cy : Fin d.rows),
    ∀ i < d.font.width.toNat, ∀ j < d.font.height.toNat, ∀ k < d.fb.bytesPerPixel,
      s.video.bytes
          (d.offset (cx * d.font.width.toNat + i) (cy * d.font.height.toNat + j) k) =
        colorByte (cellColor d.font.tableBit d.fg d.bg (t.cell cx cy) i j) k
  margin : ∀ x < d.fb.width, ∀ y < d.fb.height,
    d.cols * d.font.width.toNat ≤ x ∨ d.rows * d.font.height.toNat ≤ y →
      ∀ k < d.fb.bytesPerPixel, s.video.bytes (d.offset x y k) = colorByte d.bg k
  rows : ∀ a ∈ s.video.accessed, a / d.fb.pitch < d.fb.height

variable {d : Display} {s : State} {t : Terminal UInt8 d.cols d.rows}

theorem Simulates.refines (hd : Bound d) (h : Simulates d s t)
    (hg : d.font.drawn = d.font.tableBit) : Refines d s t where
  cursorX := ⟨h.x, h.x ▸ t.x.isLt⟩
  cursorY := ⟨h.y, h.y ▸ t.y.isLt⟩
  cells cx cy i hi j hj k hk := by
    have hx := row_lt cx.isLt hi
    have hy := row_lt cy.isLt hj
    rw [h.shows.pixel _ (hx.trans_le hd.cols_le) _ (hy.trans_le hd.rows_le) k hk, picture,
      render_cell t hi hj, hg, apply_cellColor colorByte]
  margin x hx y hy hout k hk := by
    rw [h.shows.pixel x hx y hy k hk, picture, render_margin t hd.width_pos hd.height_pos hout]
  rows a ha := Nat.div_lt_of_lt_mul (Nat.mul_comm d.fb.height _ ▸ h.shows.accessed a ha)

/-! ## The address of a glyph -/

theorem FontShape.glyphOf_lt {font : FontShape} (hf : font.WellFormed) (c : UInt8) :
    font.glyphOf c ≤ min font.glyphCount.toNat 256 - 1 := by
  have hc := c.toNat_lt
  have hg := hf.glyphs
  have hq : '?'.toNat = 63 := by decide
  unfold FontShape.glyphOf
  split <;> omega

theorem FontShape.shown_toNat (font : Font) (c : UInt8) :
    (font.shown c).toNat = font.glyphOf c := by
  have h : c.toUInt32 ≥ font.glyphCount ↔ ¬ c.toNat < font.glyphCount.toNat := by
    rw [ge_iff_le, UInt32.le_iff_toNat_le, UInt8.toNat_toUInt32, Nat.not_lt]
  by_cases hc : c.toNat < font.glyphCount.toNat
  · simp [Font.shown, FontShape.glyphOf, h, hc]
  · simp only [Font.shown, FontShape.glyphOf, h, hc, not_false_eq_true, if_true, if_false]
    decide

theorem FontShape.WellFormed.width_add_lt {font : FontShape} (hf : font.WellFormed)
    (ha : font.Addressable) : font.width.toNat + 7 < 2 ^ 32 := by
  have hg := hf.glyphs
  have hgs : 63 * font.glyphSize.toNat < 2 ^ 32 :=
    (Nat.mul_le_mul_right _ (by omega)).trans_lt ha
  have hrow : 1 * ((font.width.toNat + 7) / 8) ≤ font.glyphSize.toNat :=
    (Nat.mul_le_mul_right _ hf.height_pos).trans hf.size
  omega

theorem Font.drawn_eq {font : Font} (hf : font.toFontShape.WellFormed)
    (ha : font.toFontShape.Addressable) : font.drawn = font.tableBit := by
  funext c x y
  have hmul : ((font.shown c).toUInt32 * font.glyphSize).toNat =
      font.glyphOf c * font.glyphSize.toNat := by
    rw [UInt32.toNat_mul, UInt8.toNat_toUInt32, FontShape.shown_toNat]
    exact Nat.mod_eq_of_lt
      ((Nat.mul_le_mul_right _ (FontShape.glyphOf_lt hf c)).trans_lt ha)
  have hrow : ((font.width + 7) / 8).toNat = (font.width.toNat + 7) / 8 := by
    have hw := hf.width_add_lt ha
    rw [UInt32.toNat_div, UInt32.toNat_add]
    simp only [UInt32.reduceToNat]
    rw [Nat.mod_eq_of_lt hw]
  rw [Font.drawn, Font.bit, Font.glyphByte, Font.tableBit, hmul, hrow]

/-! ## Runs -/

def consoleAfter (s : State) (fb : Framebuffer) (font : Font) (cs : List UInt8) : State :=
  cs.foldl putchar (clear (bind s (some fb) (some font)))

def terminalAfter (fb : Framebuffer) (font : Font) (hf : font.toFontShape.WellFormed)
    (hu : Usable fb.toGeometry font.toFontShape) (cs : List UInt8) :
    Terminal UInt8 (boundDisplay fb.toGeometry font).cols (boundDisplay fb.toGeometry font).rows :=
  cs.foldl receive (Terminal.blank (cols_pos hf hu) (rows_pos hf hu))

theorem simulates_consoleAfter {fb : Framebuffer} {font : Font}
    (hf : font.toFontShape.WellFormed) (hu : Usable fb.toGeometry font.toFontShape) (s : State)
    (cs : List UInt8) :
    Simulates (boundDisplay fb.toGeometry font) (consoleAfter s fb font cs)
      (terminalAfter fb font hf hu cs) :=
  simulates_foldl_putchar (bound_boundDisplay hf hu) (simulates_clear_bind hf hu s) cs

def twoCells (font : FontShape) : Framebuffer where
  width := 2 * font.width.toNat
  height := font.height.toNat
  pitch := 2 * font.width.toNat * 4
  bytesPerPixel := 4
  redShift := 16
  greenShift := 8
  blueShift := 0
  base := fun _ => 0

theorem usable_twoCells (font : FontShape) : Usable (twoCells font).toGeometry font :=
  ⟨Nat.le_mul_of_pos_left _ (by decide), Nat.le_refl _, .inr rfl, Nat.le_refl _⟩

def oneBit (font : FontShape) (n : ℕ) : Font :=
  { font with data := fun a => if a = n * font.glyphSize.toNat then 0x80 else 0 }

theorem FontShape.glyphOf_of_lt {font : FontShape} {c : UInt8}
    (hg : c.toNat < font.glyphCount.toNat) : font.glyphOf c = c.toNat := if_pos hg

theorem tableBit_oneBit {font : FontShape} {c : UInt8} (hg : c.toNat < font.glyphCount.toNat) :
    (oneBit font c.toNat).tableBit c 0 0 = true := by
  have ha : (oneBit font c.toNat).glyphOf c = c.toNat := FontShape.glyphOf_of_lt hg
  simp only [Font.tableBit, ha, Nat.zero_mul, Nat.zero_div, Nat.add_zero]
  simp [oneBit]

/-- The address that `draw_char` computes is a word, so it misses a bit beyond 32 bits. -/
theorem drawn_oneBit {font : FontShape} {c : UInt8}
    (hbig : 2 ^ 32 ≤ c.toNat * font.glyphSize.toNat) :
    (oneBit font c.toNat).drawn c 0 0 = false := by
  have hdata : (oneBit font c.toNat).data
      (((oneBit font c.toNat).shown c).toUInt32 * font.glyphSize).toNat = 0 :=
    if_neg (by have := UInt32.toNat_lt (((oneBit font c.toNat).shown c).toUInt32 * font.glyphSize)
               omega)
  have hbyte : (oneBit font c.toNat).glyphByte ((oneBit font c.toNat).shown c) 0 0 = 0 := by
    rw [← hdata]
    simp only [Font.glyphByte, Nat.zero_mul, Nat.zero_div, Nat.add_zero]
    rfl
  rw [Font.drawn, Font.bit, hbyte]
  rfl

theorem receive_of_printed {cols rows : ℕ} (t : Terminal UInt8 cols rows) {c : UInt8}
    (hc : 63 ≤ c.toNat) : receive t c = t.print c := by
  have hne : ∀ b : UInt8, b.toNat < 63 → c ≠ b := fun b hb he => by
    subst he
    omega
  rw [receive, if_neg (hne _ (by decide)), if_neg (hne _ (by decide)), if_neg (hne _ (by decide)),
    if_neg (hne _ (by decide))]

theorem cell_print_blank {cols rows : ℕ} (hc : 0 < cols) (hr : 0 < rows) (h : 1 < cols)
    (c : UInt8) :
    ((Terminal.blank hc hr).print c).get 0 0 = some c := by
  have hp : (Terminal.blank hc hr).print c =
      { (Terminal.blank hc hr).set (some c) with x := ⟨0 + 1, h⟩ } := dif_pos h
  rw [hp]
  exact ((Terminal.blank hc hr).get_set (some c) 0 0).trans (if_pos ⟨rfl, rfl⟩)

theorem not_refines_oneBit {font : FontShape} (hf : font.WellFormed) {c : UInt8}
    (hc : 63 ≤ c.toNat) (hg : c.toNat < font.glyphCount.toNat)
    (hbig : 2 ^ 32 ≤ c.toNat * font.glyphSize.toNat) (s : State) :
    ¬ Refines (boundDisplay (twoCells font).toGeometry (oneBit font c.toNat))
      (consoleAfter s (twoCells font) (oneBit font c.toNat) [c])
      (terminalAfter (twoCells font) (oneBit font c.toNat) hf (usable_twoCells font) [c]) := by
  have hw := hf.width_pos
  have hh := hf.height_pos
  have hcols : 0 < (boundDisplay (twoCells font).toGeometry (oneBit font c.toNat)).cols :=
    cols_pos hf (usable_twoCells font)
  have hrows : 0 < (boundDisplay (twoCells font).toGeometry (oneBit font c.toNat)).rows :=
    rows_pos hf (usable_twoCells font)
  have hget : (terminalAfter (twoCells font) (oneBit font c.toNat) hf (usable_twoCells font)
      [c]).get 0 0 = some c := by
    have htwo : 2 * font.width.toNat / font.width.toNat = 2 := Nat.mul_div_cancel _ hw
    have hnext : 1 < (boundDisplay (twoCells font).toGeometry (oneBit font c.toNat)).cols := by
      simp only [boundDisplay, twoCells, oneBit]
      omega
    unfold terminalAfter
    rw [List.foldl_cons, List.foldl_nil, receive_of_printed _ hc]
    exact cell_print_blank hcols hrows hnext c
  have hcell := (Terminal.get_cell _ ⟨0, hcols⟩ ⟨0, hrows⟩).symm.trans hget
  have hsim : Simulates (boundDisplay (twoCells font).toGeometry (oneBit font c.toNat)) _ _ :=
    simulates_consoleAfter hf (usable_twoCells font) s [c]
  intro h
  have hcode := hsim.shows.pixel 0 (Nat.mul_pos (by decide) hw) 0 hh 0 (Nat.succ_pos 3)
  have htable := h.cells ⟨0, hcols⟩ ⟨0, hrows⟩ 0 hw 0 hh 0 (Nat.succ_pos 3)
  rw [hcell] at htable
  simp only [Nat.zero_mul, Nat.zero_add] at htable
  -- the table has the bit, the glyph that is drawn has not
  have htableBit : cellColor (oneBit font c.toNat).tableBit
      (makeColor (twoCells font).toGeometry 255 255 255)
      (makeColor (twoCells font).toGeometry 0 0 0) (some c) 0 0 =
      makeColor (twoCells font).toGeometry 255 255 255 := if_pos (tableBit_oneBit hg)
  have hdrawn : picture (boundDisplay (twoCells font).toGeometry (oneBit font c.toNat))
      (oneBit font c.toNat).drawn
      (terminalAfter (twoCells font) (oneBit font c.toNat) hf (usable_twoCells font) [c]) 0 0 =
      colorByte (makeColor (twoCells font).toGeometry 0 0 0) := by
    simp only [picture, render, Nat.zero_div, hget, Nat.zero_mod, cellColor, drawn_oneBit hbig]
    rfl
  have hfg : colorByte (makeColor (twoCells font).toGeometry 255 255 255) 0 = 255 := by
    simp only [makeColor, twoCells]
    decide
  have hbg : colorByte (makeColor (twoCells font).toGeometry 0 0 0) 0 = 0 := by
    simp only [makeColor, twoCells]
    decide
  have h255 : (255 : UInt8) = 0 := by
    rw [← hfg, ← hbg, ← htableBit, ← hdrawn]
    exact htable.symm.trans hcode
  exact absurd h255 (by decide)

/-- For the fonts of a shape, output on every framebuffer shows the glyphs of the table
after every sequence of characters exactly when the table can be addressed in 32 bits. -/
theorem refines_iff_addressable {font : FontShape} (hf : font.WellFormed) :
    (∀ (data : Mem UInt8) (fb : Framebuffer) (hu : Usable fb.toGeometry font) (s : State)
        (cs : List UInt8),
      Refines (boundDisplay fb.toGeometry { font with data := data })
        (consoleAfter s fb { font with data := data } cs)
        (terminalAfter fb { font with data := data } hf hu cs)) ↔
    font.Addressable := by
  constructor
  · intro h
    by_contra hbig
    have hg := hf.glyphs
    obtain ⟨c, hc⟩ : ∃ c : UInt8, c.toNat = min font.glyphCount.toNat 256 - 1 :=
      ⟨UInt8.ofNat (min font.glyphCount.toNat 256 - 1), by
        rw [UInt8.toNat_ofNat']
        omega⟩
    rw [FontShape.Addressable, ← hc, Nat.not_lt] at hbig
    exact not_refines_oneBit hf (by omega) (by omega) hbig staticState (h _ _ _ staticState _)
  · intro ha data fb hu s cs
    exact (simulates_consoleAfter hf hu s cs).refines (bound_boundDisplay hf hu)
      (Font.drawn_eq hf ha)

def font8x16 : FontShape := ⟨8, 16, 16, 256⟩

theorem font8x16_wellFormed : font8x16.WellFormed := ⟨by decide, by decide, by decide, by decide⟩

theorem refines_font8x16 :
    Refines (boundDisplay (twoCells font8x16).toGeometry (oneBit font8x16 72))
      (consoleAfter staticState (twoCells font8x16) (oneBit font8x16 72) [72, 105, 10])
      (terminalAfter (twoCells font8x16) (oneBit font8x16 72) font8x16_wellFormed
        (usable_twoCells font8x16) [72, 105, 10]) :=
  (refines_iff_addressable font8x16_wellFormed).mpr
    (by unfold FontShape.Addressable; decide) _ _ _ _ _

/-- 256 glyphs of one row of eight bits, each stored in `2 ^ 26` bytes. -/
def font8x1 : FontShape := ⟨8, 1, 0x4000000, 256⟩

theorem font8x1_wellFormed : font8x1.WellFormed := ⟨by decide, by decide, by decide, by decide⟩

/-- The glyph of `@` starts at `64 * 2 ^ 26`; the product is 0, so `@` shows as the first
glyph of the table. -/
theorem not_refines_font8x1 :
    ¬ Refines (boundDisplay (twoCells font8x1).toGeometry (oneBit font8x1 64))
      (consoleAfter staticState (twoCells font8x1) (oneBit font8x1 64) [64])
      (terminalAfter (twoCells font8x1) (oneBit font8x1 64) font8x1_wellFormed
        (usable_twoCells font8x1) [64]) :=
  not_refines_oneBit (c := 64) font8x1_wellFormed (by decide) (by decide) (by decide) staticState

end Wnu.Console
