import Mathlib.Data.List.Basic
import Mathlib.Data.List.GetD
import Mathlib.Data.List.TakeWhile

/-! # NUL-terminated strings

A string is read from a buffer of bytes up to its first NUL, the end of the
buffer standing for one. The string routines that the file system and the shell
each define for themselves are translated here, and each is characterised by
the texts of the buffers it is given.
-/

namespace Wnu.Text

/-- The text of a buffer: its bytes before the first NUL. -/
def text (s : List UInt8) : List UInt8 := s.takeWhile (· ≠ 0)

def ascii (s : String) : List UInt8 := s.toList.map Char.toUInt8

@[simp] theorem text_nil : text [] = [] := rfl

theorem text_cons (c : UInt8) (s : List UInt8) :
    text (c :: s) = if c = 0 then [] else c :: text s := by
  simp only [text, List.takeWhile_cons]
  by_cases h : c = 0 <;> simp [h]

@[simp] theorem text_cons_zero (s : List UInt8) : text (0 :: s) = [] := by simp [text_cons]

theorem text_cons_of_ne {c : UInt8} (h : c ≠ 0) (s : List UInt8) :
    text (c :: s) = c :: text s := by simp [text_cons, h]

theorem ne_zero_of_mem_text {s : List UInt8} {c : UInt8} (h : c ∈ text s) : c ≠ 0 := by
  simpa using List.mem_takeWhile_imp h

theorem text_eq_self {s : List UInt8} (h : ∀ c ∈ s, c ≠ 0) : text s = s :=
  List.takeWhile_eq_self_iff.mpr (by simpa using h)

@[simp] theorem text_text (s : List UInt8) : text (text s) = text s :=
  text_eq_self fun _ h => ne_zero_of_mem_text h

theorem text_append_nul (s r : List UInt8) : text (s ++ 0 :: r) = text s := by
  induction s with
  | nil => simp
  | cons c s ih => rw [List.cons_append, text_cons, text_cons, ih]

theorem text_append_zero {s : List UInt8} (h : ∀ c ∈ s, c ≠ 0) (r : List UInt8) :
    text (s ++ 0 :: r) = s := (text_append_nul s r).trans (text_eq_self h)

theorem prefix_text (s : List UInt8) : text s <+: s := List.takeWhile_prefix _

theorem headD_eq_iff {c : UInt8} (hc : c ≠ 0) (s : List UInt8) :
    s.headD 0 = c ↔ ∃ r, text s = c :: r := by
  cases s with
  | nil => simpa using hc.symm
  | cons d s =>
    rcases eq_or_ne d 0 with rfl | hd
    · simpa using hc.symm
    · simp [text_cons_of_ne hd]

theorem headD_eq_zero_iff (s : List UInt8) : s.headD 0 = 0 ↔ text s = [] := by
  cases s with
  | nil => simp
  | cons d s => by_cases hd : d = 0 <;> simp [text_cons, hd]

theorem text_drop {s : List UInt8} {n : ℕ} (h : n ≤ (text s).length) :
    text (s.drop n) = (text s).drop n := by
  induction n generalizing s with
  | zero => rfl
  | succ n ih =>
    cases s with
    | nil => simp
    | cons c s =>
      by_cases hc : c = 0
      · simp [hc] at h
      · rw [text_cons_of_ne hc] at h ⊢
        exact ih (by simpa using h)

theorem getD_eq_headD_drop (s : List UInt8) (n : ℕ) : s.getD n 0 = (s.drop n).headD 0 := by
  rw [List.getD_eq_getElem?_getD, List.headD_eq_head?_getD, List.head?_drop]

theorem getD_of_lt_length_text {s : List UInt8} {n : ℕ} (h : n < (text s).length) :
    s.getD n 0 = (text s).getD n 0 := by
  obtain ⟨r, hr⟩ := prefix_text s
  conv_lhs => rw [← hr]
  exact List.getD_append _ _ _ _ h

/-- `string_len` -/
def stringLen : List UInt8 → ℕ
  | [] => 0
  | c :: s => if c ≠ 0 then stringLen s + 1 else 0

/-- `string_equal` -/
def stringEqual : List UInt8 → List UInt8 → Bool
  | a :: as, b :: bs =>
    if a ≠ 0 ∧ b ≠ 0 then
      if a ≠ b then false else stringEqual as bs
    else a = 0 ∧ b = 0
  | a :: _, [] => a = 0
  | [], b :: _ => b = 0
  | [], [] => true

/-- `string_starts_with` -/
def stringStartsWith : List UInt8 → List UInt8 → Bool
  | _, [] => true
  | s, c :: prefix' =>
    if c ≠ 0 then
      if s.headD 0 ≠ c then false else stringStartsWith s.tail prefix'
    else true

/-- The loop of `string_copy` from index `i`, with room for that many bytes before the NUL. -/
def stringCopyFrom {n : ℕ} (dst : Vector UInt8 n) (i : ℕ) : List UInt8 → ℕ → Vector UInt8 n
  | _, 0 => dst.setIfInBounds i 0
  | [], _ + 1 => dst.setIfInBounds i 0
  | c :: src, room + 1 =>
    if c ≠ 0 then stringCopyFrom (dst.setIfInBounds i c) (i + 1) src room
    else dst.setIfInBounds i 0

/-- `string_copy` -/
def stringCopy {n : ℕ} (dst : Vector UInt8 n) (src : List UInt8) (max : ℕ) : Vector UInt8 n :=
  if max = 0 then dst else stringCopyFrom dst 0 src (max - 1)

@[simp] theorem stringLen_eq (s : List UInt8) : stringLen s = (text s).length := by
  induction s with
  | nil => rfl
  | cons c s ih =>
    by_cases h : c = 0
    · simp [stringLen, h]
    · simp [stringLen, h, text_cons_of_ne h, ih]

theorem stringEqual_iff (a b : List UInt8) : stringEqual a b = true ↔ text a = text b := by
  induction a generalizing b with
  | nil =>
    cases b with
    | nil => simp [stringEqual]
    | cons d b => by_cases h : d = 0 <;> simp [stringEqual, text_cons, h]
  | cons c a ih =>
    cases b with
    | nil => by_cases h : c = 0 <;> simp [stringEqual, text_cons, h]
    | cons d b =>
      by_cases hc : c = 0 <;> by_cases hd : d = 0 <;> simp [stringEqual, text_cons, hc, hd, ih]

theorem stringEqual_eq (a b : List UInt8) : stringEqual a b = decide (text a = text b) := by
  rw [Bool.eq_iff_iff, stringEqual_iff, decide_eq_true_iff]

theorem stringEqual_of_ne {a b : List UInt8} (h : text a ≠ text b) : stringEqual a b = false := by
  rw [stringEqual_eq]
  exact decide_eq_false h

theorem stringStartsWith_iff (s p : List UInt8) :
    stringStartsWith s p = true ↔ text p <+: text s := by
  induction p generalizing s with
  | nil => simp [stringStartsWith]
  | cons c p ih =>
    by_cases hc : c = 0
    · simp [stringStartsWith, hc]
    · cases s with
      | nil => simp [stringStartsWith, text_cons, hc, Ne.symm hc]
      | cons d s =>
        rcases eq_or_ne d c with rfl | hd
        · simp [stringStartsWith, text_cons, hc, ih]
        · rcases eq_or_ne d 0 with rfl | h
          · simp [stringStartsWith, text_cons, hc, hd]
          · simp [stringStartsWith, text_cons, hc, hd, h, Ne.symm hd]

theorem toList_setIfInBounds_eq {n : ℕ} (dst : Vector UInt8 n) {i : ℕ} (h : i < n) (c : UInt8) :
    (dst.setIfInBounds i c).toList = dst.toList.take i ++ c :: dst.toList.drop (i + 1) := by
  rw [Vector.toList_setIfInBounds, List.set_eq_take_append_cons_drop, if_pos (by simpa using h)]

theorem toList_stringCopyFrom {n : ℕ} (dst : Vector UInt8 n) (i : ℕ) (src : List UInt8)
    (room : ℕ) (h : i + room < n) :
    ∃ tail, (stringCopyFrom dst i src room).toList =
      dst.toList.take i ++ ((text src).take room ++ 0 :: tail) := by
  induction room generalizing dst i src with
  | zero => exact ⟨_, by simpa [stringCopyFrom] using toList_setIfInBounds_eq dst (by omega) 0⟩
  | succ room ih =>
    cases src with
    | nil => exact ⟨_, by simpa [stringCopyFrom] using toList_setIfInBounds_eq dst (by omega) 0⟩
    | cons c src =>
      by_cases hc : c = 0
      · exact ⟨_, by simpa [stringCopyFrom, hc] using toList_setIfInBounds_eq dst (by omega) 0⟩
      · obtain ⟨tail, ht⟩ := ih (dst.setIfInBounds i c) (i + 1) src (by omega)
        have htake : (dst.setIfInBounds i c).toList.take (i + 1) = dst.toList.take i ++ [c] := by
          rw [toList_setIfInBounds_eq dst (by omega)]
          simp [List.take_append, List.take_take, Nat.min_eq_left (show i ≤ n by omega)]
        refine ⟨tail, ?_⟩
        simp only [stringCopyFrom, ne_eq, hc, not_false_eq_true, if_true, ht, htake,
          text_cons_of_ne hc, List.take_succ_cons, List.append_assoc, List.cons_append,
          List.nil_append]

/-- A copy holds the source's text, cut to what fits before the NUL. -/
theorem text_stringCopy {n : ℕ} (dst : Vector UInt8 n) (src : List UInt8) {max : ℕ}
    (h0 : 0 < max) (h : max ≤ n) :
    text (stringCopy dst src max).toList = (text src).take (max - 1) := by
  obtain ⟨tail, ht⟩ := toList_stringCopyFrom dst 0 src (max - 1) (by omega)
  rw [stringCopy, if_neg (by omega), ht]
  exact text_append_zero (fun c hc => ne_zero_of_mem_text (List.mem_of_mem_take hc)) _

theorem zero_mem_stringCopy {n : ℕ} (dst : Vector UInt8 n) (src : List UInt8) {max : ℕ}
    (h0 : 0 < max) (h : max ≤ n) : 0 ∈ (stringCopy dst src max).toList := by
  obtain ⟨tail, ht⟩ := toList_stringCopyFrom dst 0 src (max - 1) (by omega)
  rw [stringCopy, if_neg (by omega), ht]
  simp

end Wnu.Text
