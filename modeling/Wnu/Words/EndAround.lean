import Mathlib.Algebra.BigOperators.Group.List.Basic
import Mathlib.Algebra.Ring.Nat
import Mathlib.Data.Nat.ModEq

/-! # Sums with an end-around carry

A carry out of the highest digit is added at the lowest. Such a sum of words is the sum of
the words modulo the greatest word, with two representations of zero: the word zero
stands for the number zero alone, and the greatest word for all other multiples of itself.
-/

namespace Wnu.Words

/-- The sum of two words below a base, the carry added at the end. -/
def endAround (base x y : ℕ) : ℕ := if x + y < base then x + y else x + y + 1 - base

/-- The one's-complement sum of words below a base. -/
def onesSum (base : ℕ) (words : List ℕ) : ℕ := words.foldl (endAround base) 0

/-- The word that stands for a number. -/
structure StandsFor (base n r : ℕ) : Prop where
  lt : r < base
  modEq : r ≡ n [MOD base - 1]
  eq_zero_iff : r = 0 ↔ n = 0

variable {base n n' r r' x y : ℕ} {words : List ℕ}

theorem StandsFor.of_lt (h : n < base) : StandsFor base n n := ⟨h, rfl, Iff.rfl⟩

theorem StandsFor.unique (h : StandsFor base n r) (h' : StandsFor base n r') : r = r' := by
  have hmod : r ≡ r' [MOD base - 1] := h.modEq.trans h'.modEq.symm
  have hzero : r = 0 ↔ r' = 0 := h.eq_zero_iff.trans h'.eq_zero_iff.symm
  have hlt := h.lt
  have hlt' := h'.lt
  rcases Nat.lt_or_ge r r' with hrr | hrr
  · have hdvd := (Nat.modEq_iff_dvd' hrr.le).mp hmod
    have hle := Nat.le_of_dvd (by omega) hdvd
    omega
  · rcases Nat.eq_or_lt_of_le hrr with heq | hrr
    · exact heq.symm
    · have hdvd := (Nat.modEq_iff_dvd' hrr.le).mp hmod.symm
      have hle := Nat.le_of_dvd (by omega) hdvd
      omega

theorem modEq_fold (hb : 0 < base) (n : ℕ) : n % base + n / base ≡ n [MOD base - 1] := by
  have hone : base ≡ 1 [MOD base - 1] := ((Nat.modEq_iff_dvd' hb).mpr dvd_rfl).symm
  calc n % base + n / base
      ≡ n % base + base * (n / base) [MOD base - 1] := by
        apply Nat.ModEq.add_left
        simpa using (hone.mul_right (n / base)).symm
    _ = n := Nat.mod_add_div n base

theorem fold_eq_zero_iff (base n : ℕ) : n % base + n / base = 0 ↔ n = 0 := by
  constructor
  · intro h
    have hdiv := Nat.mod_add_div n base
    rw [(Nat.add_eq_zero_iff.mp h).1, (Nat.add_eq_zero_iff.mp h).2] at hdiv
    simpa using hdiv.symm
  · rintro rfl
    simp

theorem StandsFor.of_fold (hb : 0 < base) (h : StandsFor base (n % base + n / base) r) :
    StandsFor base n r :=
  ⟨h.lt, h.modEq.trans (modEq_fold hb n), h.eq_zero_iff.trans (fold_eq_zero_iff base n)⟩

theorem standsFor_endAround (hx : x < base) (hy : y < base) :
    StandsFor base (x + y) (endAround base x y) := by
  rw [endAround]
  split
  · exact .of_lt ‹_›
  · refine ⟨by omega, ?_, by omega⟩
    apply (Nat.modEq_iff_dvd' (by omega)).mpr
    rw [show x + y - (x + y + 1 - base) = base - 1 by omega]

theorem StandsFor.add (h : StandsFor base n r) (hx : x < base) :
    StandsFor base (n + x) (endAround base r x) := by
  have hsum := standsFor_endAround h.lt hx
  refine ⟨hsum.lt, hsum.modEq.trans (h.modEq.add_right x), hsum.eq_zero_iff.trans ?_⟩
  rw [Nat.add_eq_zero_iff, Nat.add_eq_zero_iff, h.eq_zero_iff]

theorem StandsFor.foldl (h : StandsFor base n r) (hw : ∀ x ∈ words, x < base) :
    StandsFor base (n + words.sum) (words.foldl (endAround base) r) := by
  induction words generalizing n r with
  | nil => exact h
  | cons x words ih =>
    rw [List.sum_cons, ← Nat.add_assoc]
    apply ih
    · exact h.add (hw x List.mem_cons_self)
    · exact fun y hy => hw y (List.mem_cons_of_mem x hy)

/-- The one's-complement sum stands for the sum. -/
theorem standsFor_onesSum (hb : 0 < base) (hw : ∀ x ∈ words, x < base) :
    StandsFor base words.sum (onesSum base words) := by
  have h := (StandsFor.of_lt hb).foldl hw
  rwa [Nat.zero_add] at h

theorem StandsFor.add_complement (h : StandsFor base n r) (hb : 1 < base) :
    StandsFor base (n + (base - 1 - r)) (base - 1) := by
  have hlt := h.lt
  refine ⟨by omega, ?_, ?_⟩
  · have hsum := (h.modEq.add_right (base - 1 - r)).symm
    rw [show r + (base - 1 - r) = base - 1 by omega] at hsum
    exact hsum.symm
  · refine iff_of_false (by omega) fun hzero => ?_
    have hr := h.eq_zero_iff.mpr (Nat.add_eq_zero_iff.mp hzero).1
    omega

end Wnu.Words
