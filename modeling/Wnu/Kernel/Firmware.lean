import Wnu.Console.Glyphs
import Wnu.Kernel.Display
import Wnu.Memory.Packed

/-! # What the boot loader leaves

The kernel starts with the framebuffer that the boot loader has found and with the font that
is linked in, or it stops for good. The font is a file with a packed header. From there on
the screen shows its glyphs, pixel by pixel, for whatever is printed and typed.
-/

namespace Wnu.Kernel

open Memory Text Runs

/-- The fields of `struct limine_framebuffer` that are used, with the bytes that `address` points
to. -/
structure LimineFramebuffer where
  address : Mem UInt8
  width : UInt64
  height : UInt64
  pitch : UInt64
  bpp : UInt16
  redMaskShift : UInt8
  greenMaskShift : UInt8
  blueMaskShift : UInt8

structure Firmware where
  baseRevisionSupported : Bool
  kernelAddress : Option Pci.Bases
  framebuffers : Option (List LimineFramebuffer)

/-- `struct psf2_header` -/
structure Psf2Header where
  magic : UInt32
  version : UInt32
  headersize : UInt32
  flags : UInt32
  glyphCount : UInt32
  charsize : UInt32
  height : UInt32
  width : UInt32
  deriving DecidableEq

/-- `sizeof(struct psf2_header)` -/
def psf2HeaderSize : ℕ := 32

/-- `(struct psf2_header *)_binary_assets_ter_u16n_psf_start` -/
def Psf2Header.load (file : Mem UInt8) : Psf2Header where
  magic := UInt32.ofNat (loadLE file 0 4)
  version := UInt32.ofNat (loadLE file 4 4)
  headersize := UInt32.ofNat (loadLE file 8 4)
  flags := UInt32.ofNat (loadLE file 12 4)
  glyphCount := UInt32.ofNat (loadLE file 16 4)
  charsize := UInt32.ofNat (loadLE file 20 4)
  height := UInt32.ofNat (loadLE file 24 4)
  width := UInt32.ofNat (loadLE file 28 4)

abbrev psf2Magic : UInt32 := 0x864ab572

/-- `font_init`: none if it panics. -/
def fontInit (file : Mem UInt8) : Option Console.Font :=
  let header := Psf2Header.load file
  if header.magic ≠ psf2Magic ∨ header.version ≠ 0 then none
  else some
    { width := header.width
      height := header.height
      glyphSize := header.charsize
      glyphCount := header.glyphCount
      data := fun a => file (header.headersize.toNat + a) }

def LimineFramebuffer.framebuffer (fb : LimineFramebuffer) : Console.Framebuffer where
  base := fb.address
  width := fb.width.toNat
  height := fb.height.toNat
  pitch := fb.pitch.toNat
  bytesPerPixel := (fb.bpp / 8).toNat
  redShift := fb.redMaskShift
  greenShift := fb.greenMaskShift
  blueShift := fb.blueMaskShift

/-- `framebuffer_init`: none if it panics. -/
def framebufferInit (fw : Firmware) : Option Console.Framebuffer :=
  match fw.framebuffers with
  | none => none
  | some [] => none
  | some (fb :: _) => some fb.framebuffer

/-- `kernel_address_init`, for the drivers: none if it panics. -/
def kernelAddressInit (fw : Firmware) (m : Machine) : Option Machine :=
  fw.kernelAddress.map fun bases =>
    { m with nic := { m.nic with toBases := bases }, sata := { m.sata with toBases := bases } }

/-- `_start`, up to `wnu_console_bind`: none if it panics. -/
def start (fw : Firmware) (file : Mem UInt8) (m : Machine) (l : Loaded) :
    Option (Machine × Loaded) :=
  if fw.baseRevisionSupported = false then none
  else do
    let m ← kernelAddressInit fw m
    let fb ← framebufferInit fw
    let font ← fontInit file
    return (m, { l with fb := fb, font := font })

/-! ## The header of the font -/

def Psf2Header.values (h : Psf2Header) : List ℕ :=
  [h.magic.toNat, h.version.toNat, h.headersize.toNat, h.flags.toNat, h.glyphCount.toNat,
    h.charsize.toNat, h.height.toNat, h.width.toNat]

def psf2Widths : List ℕ := List.replicate 8 4

def Psf2Header.bytes (h : Psf2Header) : List UInt8 := fieldBytes psf2Widths h.values

theorem Psf2Header.values_load (p : Mem UInt8) :
    (Psf2Header.load p).values = loadFields p 0 psf2Widths := by
  simp only [values, load, toNat_loadLE_four]
  rfl

theorem Psf2Header.values_injective : Function.Injective Psf2Header.values := by
  rintro ⟨_⟩ ⟨_⟩ heq
  simp only [values, List.cons.injEq, UInt32.toNat_inj] at heq
  simp only [heq]

theorem Psf2Header.fits (h : Psf2Header) : Fits psf2Widths h.values := by
  have h32 (x : UInt32) : x.toNat < 4294967296 := x.toNat_lt
  simp [Fits, psf2Widths, values, List.replicate, h32]

/-- Every block of this size is the bytes of one header, the one that is read. -/
theorem Psf2Header.bytes_eq_iff (file : Mem UInt8) (h : Psf2Header) :
    window file psf2HeaderSize = h.bytes ↔ h = Psf2Header.load file :=
  window_eq_fieldBytes_iff values_load fits values_injective file h

/-! ## The start -/

variable {fw : Firmware} {file : Mem UInt8} {m m' : Machine} {l l' : Loaded}

end Wnu.Kernel
