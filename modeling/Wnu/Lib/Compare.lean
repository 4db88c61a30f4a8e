import Wnu.Block.Devices

/-! # Comparisons

The library compares strings, beginnings of strings and blocks of memory byte by byte. All
of these comparisons are the lexicographic order, in which the bytes count from 0 to 255
and a text comes before those that it starts.
-/

namespace Wnu.Lib

open Memory Text Block

/-- `strcmp` -/
def strcmp : List UInt8 → List UInt8 → ℤ
  | a :: as, b :: bs =>
    if a ≠ 0 ∧ b ≠ 0 then
      if a ≠ b then a.toNat - b.toNat else strcmp as bs
    else a.toNat - b.toNat
  | a :: _, [] => a.toNat - (0 : UInt8).toNat
  | [], b :: _ => (0 : UInt8).toNat - b.toNat
  | [], [] => (0 : UInt8).toNat - (0 : UInt8).toNat

/-- The loop of `memcmp`, from an index and with that many bytes left. -/
def memcmpFrom (a b : Mem UInt8) (i : ℕ) : ℕ → ℤ
  | 0 => 0
  | n + 1 => if a i ≠ b i then (if a i < b i then -1 else 1) else memcmpFrom a b (i + 1) n

/-- `memcmp` -/
def memcmp (a b : Mem UInt8) (n : ℕ) : ℤ := memcmpFrom a b 0 n

/-- `strchr`: the index of what is found. -/
def strchr (s : List UInt8) (c : Int32) : Option ℕ := go s 0
where
  go : List UInt8 → ℕ → Option ℕ
    | [], i => if c = 0 then some i else none
    | d :: s, i =>
      if d ≠ 0 then (if d = c.toUInt32.toUInt8 then some i else go s (i + 1))
      else if c = 0 then some i else none

/-! ## The order -/

structure Compares (r : ℤ) (s t : List UInt8) : Prop where
  lt : r < 0 ↔ s < t
  eq : r = 0 ↔ s = t
  gt : 0 < r ↔ t < s

variable {r : ℤ} {s t : List UInt8} {c d : UInt8}

theorem cons_lt_cons_self (c : UInt8) (s t : List UInt8) : c :: s < c :: t ↔ s < t := by
  rw [List.cons_lt_cons_iff]
  constructor
  · rintro (hlt | ⟨-, hlt⟩)
    · exact absurd hlt (UInt8.lt_irrefl c)
    · exact hlt
  · exact fun hlt => .inr ⟨rfl, hlt⟩

theorem cons_lt_cons_of_ne (h : c ≠ d) (s t : List UInt8) : c :: s < d :: t ↔ c < d := by
  rw [List.cons_lt_cons_iff]
  exact or_iff_left fun heq => h heq.1

theorem Compares.nil : Compares 0 [] [] := ⟨by simp, by simp, by simp⟩

theorem Compares.cons (h : Compares r s t) (c : UInt8) : Compares r (c :: s) (c :: t) where
  lt := by rw [h.lt, cons_lt_cons_self]
  eq := by rw [h.eq, List.cons.injEq, and_iff_right rfl]
  gt := by rw [h.gt, cons_lt_cons_self]

theorem Compares.of_ne (hne : c ≠ d) (hlt : r < 0 ↔ c < d) (hgt : 0 < r ↔ d < c)
    (s t : List UInt8) : Compares r (c :: s) (d :: t) where
  lt := by rw [hlt, cons_lt_cons_of_ne hne]
  eq := by
    apply iff_of_false
    · rintro rfl
      rcases UInt8.lt_or_lt_of_ne hne with h | h
      · exact absurd (hlt.mpr h) (lt_irrefl 0)
      · exact absurd (hgt.mpr h) (lt_irrefl 0)
    · exact fun h => hne (List.cons.inj h).1
  gt := by rw [hgt, cons_lt_cons_of_ne hne.symm]

theorem Compares.sub (h : c ≠ d) (s t : List UInt8) :
    Compares (c.toNat - d.toNat) (c :: s) (d :: t) := by
  apply Compares.of_ne h
  · rw [UInt8.lt_iff_toNat_lt]
    omega
  · rw [UInt8.lt_iff_toNat_lt]
    omega

theorem toNat_pos (h : c ≠ 0) : 0 < c.toNat :=
  Nat.pos_of_ne_zero fun he => h (UInt8.toNat_inj.mp he)

theorem Compares.ended (h : c = 0 ∨ d = 0) (s t : List UInt8) :
    Compares (c.toNat - d.toNat) (text (c :: s)) (text (d :: t)) := by
  by_cases hc : c = 0 <;> by_cases hd : d = 0
  · rw [hc, hd, text_cons_zero, text_cons_zero]
    exact .nil
  · have hpos := toNat_pos hd
    rw [hc, text_cons_zero, text_cons_of_ne hd]
    constructor
    · exact iff_of_true (by simpa using hpos) (List.nil_lt_cons _ _)
    · exact iff_of_false (by simpa using hpos.ne') (List.cons_ne_nil _ _).symm
    · exact iff_of_false (by simp) (List.not_lt_nil _)
  · have hpos := toNat_pos hc
    rw [hd, text_cons_zero, text_cons_of_ne hc]
    constructor
    · exact iff_of_false (by simp) (List.not_lt_nil _)
    · exact iff_of_false (by simpa using hpos.ne') (List.cons_ne_nil _ _)
    · exact iff_of_true (by simpa using hpos) (List.nil_lt_cons _ _)
  · exact absurd h (by simp [hc, hd])

/-! ## The three comparisons -/

theorem compares_strcmp (a b : List UInt8) : Compares (strcmp a b) (text a) (text b) := by
  induction a generalizing b with
  | nil =>
    cases b with
    | nil => exact .nil
    | cons d b => exact .ended (c := 0) (.inl rfl) [] b
  | cons c a ih =>
    cases b with
    | nil => exact .ended (d := 0) (.inr rfl) a []
    | cons d b =>
      rw [strcmp]
      split
      · rename_i hne
        rw [text_cons_of_ne hne.1, text_cons_of_ne hne.2]
        split
        · rename_i hcd
          exact .sub hcd _ _
        · rename_i hcd
          rw [not_not.mp hcd]
          exact (ih b).cons d
      · rename_i hend
        rw [not_and_or, not_not, not_not] at hend
        exact .ended hend a b

theorem compares_strncmp (a b : List UInt8) (n : ℕ) :
    Compares (strncmp a b n) ((text a).take n) ((text b).take n) := by
  have htext (s : List UInt8) : text s = text (s.headD 0 :: s.tail) := by
    cases s with
    | nil => rfl
    | cons c s => rfl
  induction n generalizing a b with
  | zero => exact .nil
  | succ n ih =>
    rw [strncmp, htext a, htext b]
    generalize a.headD 0 = c
    generalize b.headD 0 = d
    by_cases hcd : c = d
    · rw [if_neg (not_not.mpr hcd), hcd]
      by_cases hd : d = 0
      · rw [if_pos hd, hd, text_cons_zero, text_cons_zero]
        exact .nil
      · rw [if_neg hd, text_cons_of_ne hd, text_cons_of_ne hd]
        exact (ih a.tail b.tail).cons d
    · rw [if_pos hcd]
      by_cases hend : c = 0 ∨ d = 0
      · have h := Compares.ended hend a.tail b.tail
        rcases hend with rfl | rfl
        · rw [text_cons_zero, text_cons_of_ne (Ne.symm hcd)] at h ⊢
          exact ⟨h.lt.trans (by simp), h.eq.trans (by simp), h.gt.trans (by simp)⟩
        · rw [text_cons_zero, text_cons_of_ne hcd] at h ⊢
          exact ⟨h.lt.trans (by simp), h.eq.trans (by simp), h.gt.trans (by simp)⟩
      · rw [not_or] at hend
        rw [text_cons_of_ne hend.1, text_cons_of_ne hend.2]
        exact .sub hcd _ _

theorem strncmp_eq_zero_iff (a b : List UInt8) (n : ℕ) :
    strncmp a b n = 0 ↔ (text a).take n = (text b).take n := (compares_strncmp a b n).eq

theorem compares_memcmpFrom (a b : Mem UInt8) (i n : ℕ) :
    Compares (memcmpFrom a b i n) (window (fun j => a (i + j)) n)
      (window (fun j => b (i + j)) n) := by
  induction n generalizing i with
  | zero => exact .nil
  | succ n ih =>
    rw [memcmpFrom, window_from_succ, window_from_succ]
    split
    · rename_i hne
      split
      · rename_i hlt
        exact .of_ne hne (iff_of_true (by decide) hlt)
          (iff_of_false (by decide) (UInt8.lt_asymm hlt)) _ _
      · rename_i hge
        have hgt := (UInt8.lt_or_lt_of_ne hne).resolve_left hge
        exact .of_ne hne (iff_of_false (by decide) hge) (iff_of_true (by decide) hgt) _ _
    · rename_i heq
      rw [not_not.mp heq]
      exact (ih (i + 1)).cons (b i)

/-- `memcmp`, `strncmp` and `strcmp` decide the lexicographic order, of blocks, of beginnings of
texts and of texts. -/
theorem comparisons_lexicographic (a b : List UInt8) (x y : Mem UInt8) (n : ℕ) :
    Compares (strcmp a b) (text a) (text b) ∧
      Compares (strncmp a b n) ((text a).take n) ((text b).take n) ∧
      Compares (memcmp x y n) (window x n) (window y n) := by
  refine ⟨compares_strcmp a b, compares_strncmp a b n, ?_⟩
  have h := compares_memcmpFrom x y 0 n
  simp only [Nat.zero_add] at h
  exact h

/-- `strchr` finds the first occurrence, and for zero the end of the text. -/
theorem strchr_eq (s : List UInt8) (c : Int32) :
    strchr s c = if c = 0 then some (text s).length else (text s).idxOf? c.toUInt32.toUInt8 := by
  have hgo (s : List UInt8) (i : ℕ) : strchr.go c s i =
      if c = 0 then some (i + (text s).length)
      else ((text s).idxOf? c.toUInt32.toUInt8).map (i + ·) := by
    induction s generalizing i with
    | nil => simp [strchr.go]
    | cons d s ih =>
      rw [strchr.go]
      by_cases hd : d = 0
      · simp [hd]
      · rw [if_pos hd, text_cons_of_ne hd, ih, List.idxOf?_cons]
        by_cases hc : c = 0
        · have hne : d ≠ c.toUInt32.toUInt8 := by rw [hc]; exact hd
          rw [if_neg hne, if_pos hc, if_pos hc, List.length_cons]
          congr 1
          omega
        · rw [if_neg hc, if_neg hc]
          by_cases hdc : d = c.toUInt32.toUInt8
          · simp [hdc]
          · have hbeq : (d == c.toUInt32.toUInt8) = false := by simpa using hdc
            rw [if_neg hdc, hbeq, if_neg (by decide), Option.map_map]
            congr 1
            funext j
            show i + 1 + j = i + (j + 1)
            omega
  have h := hgo s 0
  simp only [Nat.zero_add, Option.map_id'] at h
  exact h

end Wnu.Lib
