import Wnu.Memory.Bytes
import Wnu.Runs.Loops
import Wnu.Text.CString

/-! # The pixel console

Binding fixes a display: the geometry of the framebuffer, a font, the numbers of
text columns and rows and two colours. Output then draws glyphs into the bytes
of the framebuffer and scrolls them by copying rows. Sizes are naturals: every
offset the console computes from them is an offset into the framebuffer, an
object in memory. The products that the code takes in 32 bits, in the address of
a glyph, are machine words here.
-/

namespace Wnu.Console

open Memory Runs

/-- The fields of `struct wnu_framebuffer` but `base`. -/
structure Geometry where
  width : ℕ
  height : ℕ
  pitch : ℕ
  bytesPerPixel : ℕ
  redShift : UInt8
  greenShift : UInt8
  blueShift : UInt8

/-- `struct wnu_framebuffer`, with the bytes that `base` points to. -/
structure Framebuffer extends Geometry where
  base : Mem UInt8

/-- The fields of `struct wnu_font` but `data`. -/
structure FontShape where
  width : UInt32
  height : UInt32
  glyphSize : UInt32
  glyphCount : UInt32

/-- `struct wnu_font`, with the bytes that `data` points to. -/
structure Font extends FontShape where
  data : Mem UInt8

/-- What `wnu_console_bind` sets and output does not change. -/
structure Display where
  fb : Geometry
  font : Font
  cols : ℕ
  rows : ℕ
  fg : UInt32
  bg : UInt32
  ready : Bool

/-- The bytes of the framebuffer, with the offsets from `base` accessed so far. -/
structure Video where
  bytes : Mem UInt8
  accessed : List ℕ

/-- `INPUT_BUFFER_SIZE` -/
abbrev inputBufferSize : ℕ := 256

structure Input where
  buffer : Mem UInt8
  length : ℕ
  lineReady : Bool

/-- The static state of the console, with the number of lines scrolled so far. -/
structure State where
  display : Display
  video : Video
  cursorX : ℕ
  cursorY : ℕ
  input : Input
  scrolls : ℕ

def staticState : State where
  display := ⟨⟨0, 0, 0, 0, 0, 0, 0⟩, ⟨⟨0, 0, 0, 0⟩, fun _ => 0⟩, 0, 0, 0, 0, false⟩
  video := ⟨fun _ => 0, []⟩
  cursorX := 0
  cursorY := 0
  input := ⟨fun _ => 0, 0, false⟩
  scrolls := 0

/-! ## Drawing -/

/-- `make_color` -/
def makeColor (fb : Geometry) (r g b : UInt8) : UInt32 :=
  (r.toUInt32 <<< fb.redShift.toUInt32) ||| (g.toUInt32 <<< fb.greenShift.toUInt32) |||
    (b.toUInt32 <<< fb.blueShift.toUInt32)

def colorByte (color : UInt32) (k : ℕ) : UInt8 := ((color >>> (8 * k).toUInt32) &&& 0xff).toUInt8

def Video.store (v : Video) (a : ℕ) (b : UInt8) : Video :=
  ⟨Function.update v.bytes a b, a :: v.accessed⟩

def Video.load (v : Video) (a : ℕ) : UInt8 × Video := (v.bytes a, ⟨v.bytes, a :: v.accessed⟩)

/-- `put_pixel` -/
def putPixel (d : Display) (x y : ℕ) (color : UInt32) (v : Video) : Video :=
  if !d.ready then v
  else if x ≥ d.fb.width ∨ y ≥ d.fb.height then v
  else
    let pixel := y * d.fb.pitch + x * d.fb.bytesPerPixel
    if d.fb.bytesPerPixel = 4 then forLoop 4 (fun k v => v.store (pixel + k) (colorByte color k)) v
    else if d.fb.bytesPerPixel = 3 then
      forLoop 3 (fun k v => v.store (pixel + k) (colorByte color k)) v
    else v

/-- `draw_rect` -/
def drawRect (d : Display) (x y w h : ℕ) (color : UInt32) (v : Video) : Video :=
  forLoop h (fun yy => forLoop w fun xx => putPixel d (x + xx) (y + yy) color) v

/-- `clear_cell` -/
def clearCell (d : Display) (cx cy : ℕ) (v : Video) : Video :=
  drawRect d (cx * d.font.width.toNat) (cy * d.font.height.toNat)
    d.font.width.toNat d.font.height.toNat d.bg v

/-- The character that `draw_char` looks up in the font. -/
def Font.shown (font : Font) (ch : UInt8) : UInt8 :=
  if ch.toUInt32 ≥ font.glyphCount then '?'.toUInt8 else ch

/-- `glyph[byte_index]` in `draw_char`. Both `c * font->glyph_size` and
`font->width + 7` are 32-bit words. -/
def Font.glyphByte (font : Font) (c : UInt8) (x y : ℕ) : UInt8 :=
  let bytesPerRow := ((font.width + 7) / 8).toNat
  font.data ((c.toUInt32 * font.glyphSize).toNat + (y * bytesPerRow + x / 8))

/-- The test on the bits of a glyph in `draw_char`. -/
def Font.bit (font : Font) (c : UInt8) (x y : ℕ) : Bool :=
  (font.glyphByte c x y &&& ((0x80 : UInt8) >>> (x % 8).toUInt8)) ≠ 0

/-- `draw_char` -/
def drawChar (d : Display) (cx cy : ℕ) (ch : UInt8) (v : Video) : Video :=
  let c := d.font.shown ch
  let v := clearCell d cx cy v
  let px := cx * d.font.width.toNat
  let py := cy * d.font.height.toNat
  forLoop d.font.height.toNat (fun y => forLoop d.font.width.toNat fun x v =>
    if d.font.bit c x y then putPixel d (px + x) (py + y) d.fg v else v) v

/-- The copying loops of `scroll`. -/
def copyRows (d : Display) (lineHeight copyHeight : ℕ) (v : Video) : Video :=
  forLoop copyHeight (fun y => forLoop d.fb.pitch fun x v =>
    let (b, v) := v.load ((y + lineHeight) * d.fb.pitch + x)
    v.store (y * d.fb.pitch + x) b) v

/-- `scroll` -/
def scroll (d : Display) (v : Video) : Video :=
  let lineHeight := d.font.height.toNat
  let copyHeight := d.fb.height - lineHeight
  drawRect d 0 copyHeight d.fb.width lineHeight d.bg (copyRows d lineHeight copyHeight v)

/-! ## Output -/

/-- `newline` -/
def newline (s : State) : State :=
  let s := { s with cursorX := 0, cursorY := s.cursorY + 1 }
  if s.cursorY ≥ s.display.rows then
    { s with video := scroll s.display s.video, cursorY := s.display.rows - 1,
             scrolls := s.scrolls + 1 }
  else s

/-- `backspace` -/
def backspace (s : State) : State :=
  if s.cursorX = 0 then s
  else
    let s := { s with cursorX := s.cursorX - 1 }
    { s with video := clearCell s.display s.cursorX s.cursorY s.video }

/-- The end of `wnu_console_putchar`, for a character that is drawn. -/
def printChar (s : State) (c : UInt8) : State :=
  let s := { s with video := drawChar s.display s.cursorX s.cursorY c s.video,
                    cursorX := s.cursorX + 1 }
  if s.cursorX ≥ s.display.cols then newline s else s

/-- `wnu_console_putchar` -/
def putchar (s : State) (c : UInt8) : State :=
  if !s.display.ready then s
  else if c = '\n'.toUInt8 then newline s
  else if c = '\r'.toUInt8 then { s with cursorX := 0 }
  else if c = 8 then backspace s
  else if c = '\t'.toUInt8 then
    -- each of the four calls `wnu_console_putchar(' ')` draws a space
    forLoop 4 (fun _ s => printChar s ' '.toUInt8) s
  else printChar s c

/-- `wnu_console_clear` -/
def clear (s : State) : State :=
  if !s.display.ready then s
  else { s with video := drawRect s.display 0 0 s.display.fb.width s.display.fb.height
                  s.display.bg s.video,
                cursorX := 0, cursorY := 0 }

/-- `wnu_console_bind`. A null framebuffer or font leaves the console not ready,
and then nothing reads the display. -/
def bind (s : State) (newFb : Option Framebuffer) (newFont : Option Font) : State :=
  let s := { s with cursorX := 0, cursorY := 0,
                    input := ⟨Function.update s.input.buffer 0 0, 0, false⟩ }
  match newFb, newFont with
  | some fb, some font =>
    let s := { s with display.fb := fb.toGeometry, display.font := font, video := ⟨fb.base, []⟩ }
    if font.width = 0 ∨ font.height = 0 then { s with display.ready := false }
    else
      let s := { s with display.cols := fb.width / font.width.toNat,
                        display.rows := fb.height / font.height.toNat }
      if s.display.cols = 0 ∨ s.display.rows = 0 then { s with display.ready := false }
      else { s with display.fg := makeColor fb.toGeometry 255 255 255,
                    display.bg := makeColor fb.toGeometry 0 0 0, display.ready := true }
  | _, _ => { s with display.ready := false }

end Wnu.Console
