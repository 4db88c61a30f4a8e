import Wnu.Shell.Effects

/-! # Resolution in every state

The current directory is an absolute path in every state of the shell, so a path that
resolves is one that the file system takes. Whatever happens, the array for the result is
only written below its size.
-/

namespace Wnu.Shell

open Text Memory Vfs

variable {D currentDir input : List UInt8} {out : Mem UInt8} {n i : ℕ} {s : State}

/-! ## What is written -/

theorem stringCopyFrom_of_le (src : List UInt8) (k room : ℕ) (out : Mem UInt8)
    (h : k + room < i) : stringCopyFrom out k src room i = out i := by
  induction room generalizing k src out with
  | zero =>
    rw [stringCopyFrom]
    exact Function.update_of_ne (by omega) _ _
  | succ room ih =>
    cases src with
    | nil =>
      rw [stringCopyFrom]
      exact Function.update_of_ne (by omega) _ _
    | cons c src =>
      rw [stringCopyFrom]
      split
      · rw [ih src (k + 1) _ (by omega)]
        exact Function.update_of_ne (by omega) _ _
      · exact Function.update_of_ne (by omega) _ _

theorem stringCopy_of_le (out : Mem UInt8) (src : List UInt8) (h : n ≤ i) :
    stringCopy out src n i = out i := by
  rw [stringCopy]
  split
  · rfl
  · exact stringCopyFrom_of_le src 0 (n - 1) out (by omega)

theorem appendInput_of_le (input : List UInt8) {pos : ℕ} (hpos : pos < n) (out : Mem UInt8)
    (h : n ≤ i) : (appendInput n input pos out).2 i = out i := by
  induction input generalizing pos out with
  | nil => exact Function.update_of_ne (by omega) _ _
  | cons c input ih =>
    rw [appendInput]
    split
    · split
      · rfl
      · rw [ih (by omega)]
        exact Function.update_of_ne (by omega) _ _
    · exact Function.update_of_ne (by omega) _ _

theorem resolveBase_of_le (currentDir : List UInt8) (out : Mem UInt8) (h : n ≤ i) :
    (resolveBase currentDir out n).2 i = out i := by
  rw [resolveBase]
  split
  · split
    · rfl
    · exact Function.update_of_ne (by omega) _ _
  · simp only
    split
    · rfl
    · refine (Function.update_of_ne (by omega) _ _).trans ?_
      rw [copyLoop_apply, if_neg (by omega)]

theorem resolvePath_of_le (currentDir input : List UInt8) (out : Mem UInt8) (h : n ≤ i) :
    (resolvePath currentDir input out n).2 i = out i := by
  unfold resolvePath
  split
  · rfl
  split
  · rfl
  split
  · exact stringCopy_of_le out currentDir h
  split
  · split
    · rfl
    · exact stringCopy_of_le out input h
  · have hbase := resolveBase_of_le currentDir out h
    rcases resolveBase_cases currentDir n out with ⟨out', he, -⟩ | ⟨out', he, hlt, -⟩
    · rw [he] at hbase ⊢
      exact hbase
    · rw [he] at hbase ⊢
      exact (appendInput_of_le input hlt out' h).trans hbase

/-! ## What is resolved -/

theorem window_of_text_window {p : List UInt8} (h : text (window out n) = p)
    (hlen : p.length < n) : window out (p.length + 1) = p ++ [0] := by
  obtain ⟨r, hr⟩ := prefix_text (window out n)
  rw [h] at hr
  have htake : window out (p.length + 1) = (p ++ r).take (p.length + 1) := by
    rw [hr, take_window, Nat.min_eq_left (by omega)]
  cases r with
  | nil =>
    have hn := congrArg List.length hr
    rw [List.append_nil, window, List.length_map, List.length_range] at hn
    omega
  | cons c r =>
    have hc : c = 0 := by
      by_contra hc
      have hne : ∀ b ∈ p, b ≠ 0 := fun b hb => ne_zero_of_mem_text (h ▸ hb)
      have htext : text (p ++ c :: r) = p ++ c :: text r := by
        rw [text, List.takeWhile_append_of_pos (by simpa using hne)]
        exact congrArg (p ++ ·) (text_cons_of_ne hc r)
      rw [hr, h] at htext
      simpa using congrArg List.length htext
    rw [htake, hc, List.take_length_add_append]
    rfl

theorem head?_pathIn (hD : ∃ r, D = slash :: r) (p : List UInt8) :
    ∃ r, pathIn D p = slash :: r := by
  obtain ⟨d, rfl⟩ := hD
  rw [pathIn]
  split
  · exact ⟨d, rfl⟩
  split
  · rename_i habs
    exact List.head?_eq_some_iff.mp habs
  · rw [baseOf]
    split
    · exact ⟨p, rfl⟩
    · exact ⟨_, rfl⟩

theorem absolute_of_isDir {t : Table} (h : Inv t) {path : List UInt8} (hdir : isDir t path = true) :
    ∃ r, text path = slash :: r := by
  obtain ⟨node, hn, -⟩ := (isDir_iff h).mp hdir
  exact (h.node _ _ hn).1

theorem absolute_step {env : Surroundings} {s' : State} {c : Command} (h : Good s)
    (hs : Step env s c s') (habs : ∃ r, text s.dir = slash :: r) :
    ∃ r, text s'.dir = slash :: r := by
  cases hs with
  | cd _ hdir =>
    rw [State.dir, text_window_stringCopy _ _ (length_lt_of_isDir h.inv hdir)]
    exact absolute_of_isDir h.inv hdir
  | _ => exact habs

/-- The current directory is absolute in every state. -/
theorem Reachable.absolute (h : Reachable s) : ∃ r, text s.dir = slash :: r := by
  obtain ⟨t, inputs, ht, rfl⟩ := h
  refine (Runs.run_invariant (P := fun s => Good s ∧ ∃ r, text s.dir = slash :: r) ?_
    ⟨good_boot ht, [], text_dir_boot t⟩ inputs).2
  rintro s i ⟨hg, habs⟩
  exact ⟨hg.exec i, absolute_step hg (run_step _ _ _ _) habs⟩

/-- In every state a path resolves exactly if it is not empty and names one of at most 63
characters. The array then holds that path, which the file system takes, and is only written below
its size in any case. -/
theorem resolvePath_iff (hs : Reachable s) (input : List UInt8) (out : Mem UInt8) :
    let J := pathIn (text s.dir) (text input)
    let r := resolvePath s.dir input out pathMax
    (r.1 = true ↔ text input ≠ [] ∧ J.length ≤ 63) ∧
      (r.1 = true → window r.2 (J.length + 1) = J ++ [0] ∧ validPath J = true) ∧
      ∀ i, pathMax ≤ i → r.2 i = out i := by
  intro J r
  have hframe : ∀ i, pathMax ≤ i → r.2 i = out i :=
    fun i hi => resolvePath_of_le s.dir input out hi
  rcases resolvePath_cases hs.good.length_lt input out with
    ⟨hno, hfail⟩ | ⟨hne, hlt, hok, hpath⟩
  · refine ⟨iff_of_false (by simp [r, hfail]) fun hyes => ?_, fun h => ?_, hframe⟩
    · exact hno ⟨hyes.1, Nat.lt_succ_of_le hyes.2⟩
    · exact absurd (hfail.symm.trans h) (by decide)
  · refine ⟨iff_of_true hok ⟨hne, Nat.le_of_lt_succ hlt⟩, fun _ => ⟨?_, ?_⟩, hframe⟩
    · exact window_of_text_window hpath hlt
    · have htext : text J = J := (congrArg text hpath).symm.trans ((text_text _).trans hpath)
      rw [validPath_iff, htext]
      exact ⟨head?_pathIn hs.absolute _, hlt⟩

theorem resolvePath_iff_bin :
    (resolvePath (boot (init staticTable)).dir (ascii "bin") (fun _ => 7) pathMax).1 = true ∧
      (resolvePath (boot (init staticTable)).dir (ascii "bin") (fun _ => 7) pathMax).2 64 = 7 := by
  have hs : Reachable (boot (init staticTable)) :=
    ⟨init staticTable, [], reachable_init staticTable, rfl⟩
  obtain ⟨hiff, -, hframe⟩ := resolvePath_iff hs (ascii "bin") fun _ => 7
  refine ⟨hiff.mpr ⟨by decide, ?_⟩, hframe 64 le_rfl⟩
  rw [text_dir_boot]
  decide

end Wnu.Shell
