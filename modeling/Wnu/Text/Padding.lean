import Mathlib.Data.List.Basic
import Mathlib.Data.List.TakeWhile

/-! # Padded fields

A text in a field of fixed size is followed by blanks up to the end of the field. Two texts
are joined by a separator and come apart at the first one.
-/

namespace Wnu.Text

variable {α : Type*} [DecidableEq α] {blank sep : α} {s b e : List α}

def Padded (blank : α) (s : List α) : Prop := ∀ c ∈ s.dropWhile (· ≠ blank), c = blank

def pad (blank : α) (n : ℕ) (s : List α) : List α := s ++ List.replicate (n - s.length) blank

def before (sep : α) (s : List α) : List α := s.takeWhile (· ≠ sep)

def behind (sep : α) (s : List α) : List α := (s.dropWhile (· ≠ sep)).tail

theorem pad_takeWhile (h : Padded blank s) :
    pad blank s.length (s.takeWhile (· ≠ blank)) = s := by
  have hsplit : s.takeWhile (· ≠ blank) ++ s.dropWhile (· ≠ blank) = s :=
    List.takeWhile_append_dropWhile
  have hlength := congrArg List.length hsplit
  rw [List.length_append] at hlength
  have hblanks : s.dropWhile (· ≠ blank) =
      List.replicate (s.length - (s.takeWhile (· ≠ blank)).length) blank := by
    apply List.eq_replicate_iff.mpr
    constructor
    · omega
    · exact h
  rw [pad, ← hblanks, hsplit]

theorem forall_ne_of_notMem (h : sep ∉ b) : ∀ c ∈ b, decide (c ≠ sep) = true :=
  fun _ hc => decide_eq_true (ne_of_mem_of_not_mem hc h)

theorem before_append (h : sep ∉ b) : before sep (b ++ sep :: e) = b := by
  rw [before, List.takeWhile_append_of_pos (forall_ne_of_notMem h)]
  simp

theorem behind_append (h : sep ∉ b) : behind sep (b ++ sep :: e) = e := by
  rw [behind, List.dropWhile_append_of_pos (forall_ne_of_notMem h)]
  simp

theorem before_of_notMem (h : sep ∉ b) : before sep b = b :=
  List.takeWhile_eq_self_iff.mpr (forall_ne_of_notMem h)

theorem behind_of_notMem (h : sep ∉ b) : behind sep b = [] := by
  rw [behind, List.dropWhile_eq_nil_iff.mpr (forall_ne_of_notMem h), List.tail_nil]

end Wnu.Text
