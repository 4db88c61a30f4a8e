import Wnu.Console.Screen
import Wnu.Terminal.Raster

/-! # What drawing shows

The framebuffer shows a raster when the bytes of every pixel are those of its
colour. Setting a pixel plots a point, so the drawing loops paint rectangles;
scrolling moves the raster up by one line of text.
-/

namespace Wnu.Console

open Memory Runs Raster

/-- A display that pixels can be drawn on: three or four bytes for each, in rows of
at least the width. -/
structure Drawable (d : Display) : Prop where
  ready : d.ready = true
  depth : d.fb.bytesPerPixel = 3 ∨ d.fb.bytesPerPixel = 4
  pitch : d.fb.width * d.fb.bytesPerPixel ≤ d.fb.pitch

/-- The bits that `draw_char` draws for a character. -/
def Font.drawn (font : Font) (c : UInt8) : ℕ → ℕ → Bool := font.bit (font.shown c)

def Display.offset (d : Display) (x y k : ℕ) : ℕ :=
  y * d.fb.pitch + x * d.fb.bytesPerPixel + k

/-- The framebuffer holds the pixels of a raster, given by their bytes, and only its rows
were accessed. -/
structure Shows (d : Display) (v : Video) (R : Raster (Mem UInt8)) : Prop where
  pixel : ∀ x < d.fb.width, ∀ y < d.fb.height, ∀ k < d.fb.bytesPerPixel,
    v.bytes (d.offset x y k) = R x y k
  accessed : ∀ a ∈ v.accessed, a < d.fb.height * d.fb.pitch

variable {d : Display} {v : Video} {R S : Raster (Mem UInt8)} {x y k : ℕ}

theorem shows_self (m : Mem UInt8) : Shows d ⟨m, []⟩ fun x y k => m (d.offset x y k) :=
  ⟨fun _ _ _ _ _ _ => rfl, fun _ h => nomatch h⟩

theorem Shows.congr (h : Shows d v R)
    (hRS : ∀ x < d.fb.width, ∀ y < d.fb.height, R x y = S x y) : Shows d v S :=
  ⟨fun x hx y hy k hk => hRS x hx y hy ▸ h.pixel x hx y hy k hk, h.accessed⟩

/-! ## Offsets -/

theorem Drawable.column_lt (hd : Drawable d) (hx : x < d.fb.width)
    (hk : k < d.fb.bytesPerPixel) : x * d.fb.bytesPerPixel + k < d.fb.pitch := by
  have h : (x + 1) * d.fb.bytesPerPixel ≤ d.fb.width * d.fb.bytesPerPixel :=
    Nat.mul_le_mul_right _ hx
  have := hd.pitch
  rw [Nat.succ_mul] at h
  omega

theorem row_lt {c n p : ℕ} (hy : y < n) (hc : c < p) : y * p + c < n * p := by
  have h : (y + 1) * p ≤ n * p := Nat.mul_le_mul_right p hy
  rw [Nat.succ_mul] at h
  omega

theorem Drawable.offset_lt (hd : Drawable d) (hx : x < d.fb.width) (hy : y < d.fb.height)
    (hk : k < d.fb.bytesPerPixel) : d.offset x y k < d.fb.height * d.fb.pitch := by
  rw [Display.offset, Nat.add_assoc]
  exact row_lt hy (hd.column_lt hx hk)

theorem mul_add_inj {a b c e p : ℕ} (hc : c < p) (he : e < p) (h : a * p + c = b * p + e) :
    a = b ∧ c = e := by
  have hp : 0 < p := by omega
  have ha : a = b := by
    have hdiv := congrArg (· / p) h
    simpa only [Nat.mul_comm _ p, Nat.mul_add_div hp, Nat.div_eq_of_lt hc, Nat.div_eq_of_lt he,
      Nat.add_zero] using hdiv
  exact ⟨ha, by subst ha; omega⟩

theorem Drawable.offset_inj (hd : Drawable d) {x' y' k' : ℕ} (hx : x < d.fb.width)
    (hx' : x' < d.fb.width) (hk : k < d.fb.bytesPerPixel) (hk' : k' < d.fb.bytesPerPixel)
    (h : d.offset x y k = d.offset x' y' k') : x = x' ∧ y = y' ∧ k = k' := by
  simp only [Display.offset, Nat.add_assoc] at h
  obtain ⟨hy, hc⟩ := mul_add_inj (hd.column_lt hx hk) (hd.column_lt hx' hk') h
  obtain ⟨hx, hk⟩ := mul_add_inj hk hk' hc
  exact ⟨hx, hy, hk⟩

/-! ## Setting pixels -/

theorem bytes_forLoop_store (f : ℕ → UInt8) (p n : ℕ) :
    (forLoop n (fun k v => v.store (p + k) (f k)) v).bytes = copyLoop v.bytes p f n := by
  induction n with
  | zero => rfl
  | succ n ih => rw [forLoop_succ, copyLoop, ← ih]; rfl

theorem mem_accessed_forLoop_store (f : ℕ → UInt8) (p n : ℕ) {a : ℕ}
    (h : a ∈ (forLoop n (fun k v => v.store (p + k) (f k)) v).accessed) :
    a ∈ v.accessed ∨ ∃ k < n, a = p + k := by
  induction n with
  | zero => exact .inl h
  | succ n ih =>
    rw [forLoop_succ] at h
    obtain rfl | h := List.mem_cons.mp h
    · exact .inr ⟨n, Nat.lt_succ_self n, rfl⟩
    · obtain h | ⟨k, hk, rfl⟩ := ih h
      · exact .inl h
      · exact .inr ⟨k, Nat.lt_succ_of_lt hk, rfl⟩

theorem putPixel_of_lt (hd : Drawable d) (hx : x < d.fb.width) (hy : y < d.fb.height)
    (color : UInt32) :
    putPixel d x y color v = forLoop d.fb.bytesPerPixel
      (fun k v => v.store (y * d.fb.pitch + x * d.fb.bytesPerPixel + k) (colorByte color k)) v := by
  have hin : ¬ (x ≥ d.fb.width ∨ y ≥ d.fb.height) := by omega
  obtain h | h := hd.depth <;>
    simp only [putPixel, hd.ready, Bool.not_true, Bool.false_eq_true, if_false, hin, h] <;> rfl

theorem putPixel_of_not_lt (h : ¬ (x < d.fb.width ∧ y < d.fb.height)) (color : UInt32) :
    putPixel d x y color v = v := by
  have hout : x ≥ d.fb.width ∨ y ≥ d.fb.height := by omega
  simp only [putPixel, hout, if_true, ite_self]

theorem Shows.putPixel (hd : Drawable d) (h : Shows d v R) (x y : ℕ) (color : UInt32) :
    Shows d (putPixel d x y color v) (plot R x y (colorByte color)) := by
  by_cases hin : x < d.fb.width ∧ y < d.fb.height
  · obtain ⟨hx, hy⟩ := hin
    rw [putPixel_of_lt hd hx hy]
    constructor
    · intro i hi j hj k hk
      rw [bytes_forLoop_store, copyLoop_apply]
      by_cases hp : i = x ∧ j = y
      · obtain ⟨rfl, rfl⟩ := hp
        rw [if_pos (by simp only [Display.offset]; omega), plot, if_pos ⟨rfl, rfl⟩]
        simp only [Display.offset, Nat.add_sub_cancel_left]
      · rw [if_neg, plot, if_neg hp]
        · exact h.pixel i hi j hj k hk
        · intro hr
          obtain ⟨k', hk'⟩ := Nat.exists_eq_add_of_le hr.1
          have hlt : k' < d.fb.bytesPerPixel := by omega
          obtain ⟨hxi, hyj, -⟩ : i = x ∧ j = y ∧ _ := hd.offset_inj hi hx hk hlt hk'
          exact hp ⟨hxi, hyj⟩
    · intro a ha
      rcases mem_accessed_forLoop_store _ _ _ ha with ha | ⟨k, hk, rfl⟩
      · exact h.accessed a ha
      · exact hd.offset_lt hx hy hk
  · rw [putPixel_of_not_lt hin]
    apply h.congr
    intro i hi j hj
    rw [plot, if_neg]
    rintro ⟨rfl, rfl⟩
    exact hin ⟨hi, hj⟩

theorem Shows.drawRect (hd : Drawable d) (h : Shows d v R) (x y w h' : ℕ) (color : UInt32) :
    Shows d (drawRect d x y w h' color v) (fill R x y w h' (colorByte color)) :=
  forLoop_paint (Shows d) (fun _ _ _ _ _ _ hs => hs.putPixel hd _ _ _) h

theorem Shows.clearCell (hd : Drawable d) (h : Shows d v R) (cx cy : ℕ) :
    Shows d (clearCell d cx cy v)
      (fill R (cx * d.font.width.toNat) (cy * d.font.height.toNat)
        d.font.width.toNat d.font.height.toNat (colorByte d.bg)) :=
  h.drawRect hd _ _ _ _ _

theorem Shows.drawChar (hd : Drawable d) (h : Shows d v R) (cx cy : ℕ) (ch : UInt8) :
    Shows d (drawChar d cx cy ch v)
      (paint R (cx * d.font.width.toNat) (cy * d.font.height.toNat)
        d.font.width.toNat d.font.height.toNat fun i j =>
          some (cellColor d.font.drawn (colorByte d.fg) (colorByte d.bg) (some ch) i j)) := by
  rw [← paint_fill]
  refine forLoop_paint (Shows d) (fun i _ j _ s R hs => ?_) (h.clearCell hd cx cy)
  cases hb : d.font.drawn ch i j <;> rw [Font.drawn] at hb <;> rw [hb]
  · simpa only [Bool.false_eq_true, if_false] using hs
  · simpa only [if_true] using hs.putPixel hd _ _ _

/-! ## Scrolling -/

def Moved (d : Display) (v w : Video) (shift n : ℕ) : Prop :=
  (∀ a, w.bytes a = if a < n then v.bytes (a + shift) else v.bytes a) ∧
    ∀ a ∈ w.accessed, a < d.fb.height * d.fb.pitch

/-- Rows are copied from further down, so a byte is read before it is written. -/
theorem moved_copyRows (lines n : ℕ) (hn : n + lines ≤ d.fb.height)
    (hv : ∀ a ∈ v.accessed, a < d.fb.height * d.fb.pitch) :
    Moved d v (copyRows d lines n v) (lines * d.fb.pitch) (n * d.fb.pitch) := by
  refine forLoop_invariant (P := fun y w => Moved d v w (lines * d.fb.pitch) (y * d.fb.pitch))
    ⟨by simp, hv⟩ ?_
  intro y hy w hw
  rw [Nat.succ_mul]
  refine forLoop_invariant
    (P := fun x w => Moved d v w (lines * d.fb.pitch) (y * d.fb.pitch + x)) hw ?_
  rintro x hx w ⟨hb, ha⟩
  have hsrc : (y + lines) * d.fb.pitch + x = y * d.fb.pitch + x + lines * d.fb.pitch := by
    rw [Nat.add_mul]
    omega
  constructor
  · intro a
    simp only [Video.load, Video.store, Function.update_apply, hb, hsrc]
    by_cases hax : a = y * d.fb.pitch + x
    · subst hax
      have hge : ¬ y * d.fb.pitch + x + lines * d.fb.pitch < y * d.fb.pitch + x := by omega
      have hlt : y * d.fb.pitch + x < y * d.fb.pitch + (x + 1) := by omega
      simp only [hge, hlt, if_true, if_false]
    · have hiff : a < y * d.fb.pitch + (x + 1) ↔ a < y * d.fb.pitch + x := by omega
      simp only [hax, hiff, if_false]
  · intro a hmem
    obtain rfl | hmem := List.mem_cons.mp hmem
    · exact row_lt (by omega) hx
    obtain rfl | hmem := List.mem_cons.mp hmem
    · exact row_lt (by omega) hx
    · exact ha a hmem

theorem Shows.scroll (hd : Drawable d) (h : Shows d v R)
    (hh : d.font.height.toNat ≤ d.fb.height) :
    Shows d (scroll d v) fun i j =>
      if j < d.fb.height - d.font.height.toNat then R i (j + d.font.height.toNat)
      else colorByte d.bg := by
  obtain ⟨hb, ha⟩ := moved_copyRows (d := d) (v := v) d.font.height.toNat
    (d.fb.height - d.font.height.toNat) (by omega) h.accessed
  have hcopied : Shows d (copyRows d d.font.height.toNat (d.fb.height - d.font.height.toNat) v)
      fun i j =>
      if j < d.fb.height - d.font.height.toNat then R i (j + d.font.height.toNat) else R i j := by
    refine ⟨fun i hi j hj k hk => ?_, ha⟩
    rw [hb]
    have hcol := hd.column_lt hi hk
    by_cases hlt : j < d.fb.height - d.font.height.toNat
    · rw [if_pos (by rw [Display.offset, Nat.add_assoc]; exact row_lt hlt hcol), if_pos hlt,
        ← h.pixel i hi _ (by omega) k hk]
      congr 1
      simp only [Display.offset, Nat.add_mul]
      omega
    · have hge : (d.fb.height - d.font.height.toNat) * d.fb.pitch ≤ j * d.fb.pitch :=
        Nat.mul_le_mul_right _ (Nat.not_lt.mp hlt)
      rw [if_neg (by simp only [Display.offset]; omega), if_neg hlt]
      exact h.pixel i hi j hj k hk
  apply (hcopied.drawRect hd 0 _ d.fb.width d.font.height.toNat d.bg).congr
  intro i hi j hj
  by_cases hlt : j < d.fb.height - d.font.height.toNat
  · have hout : ¬ ((0 ≤ i ∧ i < 0 + d.fb.width) ∧ (d.fb.height - d.font.height.toNat ≤ j ∧
        j < d.fb.height - d.font.height.toNat + d.font.height.toNat)) := by omega
    simp only [paint, hout, if_false, hlt, if_true]
  · have hin : (0 ≤ i ∧ i < 0 + d.fb.width) ∧ (d.fb.height - d.font.height.toNat ≤ j ∧
        j < d.fb.height - d.font.height.toNat + d.font.height.toNat) := by omega
    simp only [fill, paint, hin, and_self, if_true, hlt, if_false, Option.getD_some]

end Wnu.Console
