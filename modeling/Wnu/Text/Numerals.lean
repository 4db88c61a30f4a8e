import Mathlib.Data.Nat.Digits.Lemmas

/-! # Numerals

A number is written in a base with one sign for each digit, the highest one first. What is
written can be read back, and it does not start with the sign of zero.
-/

namespace Wnu.Text

variable {α : Type*} {sign : ℕ → α} {value : α → ℕ} {b n : ℕ}

/-- A number in a base. -/
def numeral (sign : ℕ → α) (b n : ℕ) : List α :=
  if n = 0 then [sign 0] else ((Nat.digits b n).map sign).reverse

/-- The number that a numeral stands for. -/
def readNumeral (value : α → ℕ) (b : ℕ) (s : List α) : ℕ :=
  s.foldl (fun n c => value c + b * n) 0

theorem numeral_of_pos (sign : ℕ → α) (b : ℕ) (hn : 0 < n) :
    numeral sign b n = ((Nat.digits b n).map sign).reverse := if_neg (Nat.ne_of_gt hn)

theorem exists_of_mem_numeral (hb : 1 < b) {c : α} (hc : c ∈ numeral sign b n) :
    ∃ d < b, c = sign d := by
  rw [numeral] at hc
  split at hc
  · exact ⟨0, by omega, List.mem_singleton.mp hc⟩
  · obtain ⟨d, hd, rfl⟩ := List.mem_map.mp (List.mem_reverse.mp hc)
    exact ⟨d, Nat.digits_lt_base hb hd, rfl⟩

/-- A numeral is read back as the number that has been written. -/
theorem readNumeral_numeral (hb : 1 < b) (hvalue : ∀ d < b, value (sign d) = d) (n : ℕ) :
    readNumeral value b (numeral sign b n) = n := by
  rw [numeral]
  split
  · rename_i hn
    rw [readNumeral, List.foldl_cons, List.foldl_nil, hvalue 0 (by omega), Nat.mul_zero, hn]
  · have hdigits : (Nat.digits b n).map (fun d => value (sign d)) = Nat.digits b n :=
      (List.map_congr_left fun d hd => hvalue d (Nat.digits_lt_base hb hd)).trans
        (List.map_id _)
    have hhorner : Nat.ofDigits b (Nat.digits b n) =
        (Nat.digits b n).foldr (fun d n => value (sign d) + b * n) 0 := by
      rw [← hdigits, Nat.ofDigits_eq_foldr, List.foldr_map, hdigits]
      rfl
    rw [readNumeral, List.foldl_reverse, List.foldr_map, ← hhorner, Nat.ofDigits_digits]

theorem head?_numeral_ne (hb : 1 < b) (hvalue : ∀ d < b, value (sign d) = d) (hn : 0 < n) :
    (numeral sign b n).head? ≠ some (sign 0) := by
  have hne : Nat.digits b n ≠ [] := Nat.digits_ne_nil_iff_ne_zero.mpr (Nat.ne_of_gt hn)
  have hlast : (Nat.digits b n).getLast hne < b := Nat.digits_lt_base hb (List.getLast_mem hne)
  rw [numeral_of_pos sign b hn, List.head?_reverse, List.getLast?_map,
    List.getLast?_eq_some_getLast hne]
  intro heq
  apply Nat.getLast_digit_ne_zero b (Nat.ne_of_gt hn)
  have hsign : sign ((Nat.digits b n).getLast hne) = sign 0 := Option.some_inj.mp heq
  rw [← hvalue _ hlast, hsign, hvalue 0 (by omega)]

end Wnu.Text
