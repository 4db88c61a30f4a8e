import Wnu.Memory.Bytes
import Wnu.Vfs.Paths

/-! # Resolving paths

A path is taken as it is if it is absolute, and otherwise put behind the current
directory. The result is built in an array of the caller, piece by piece, and every
piece is checked against its size.
-/

namespace Wnu.Shell

open Text Memory Vfs

/-- `PATH_MAX` -/
abbrev pathMax : ℕ := 64

/-- The loop of `string_copy`, with room for that many bytes before the NUL. -/
def stringCopyFrom (dst : Mem UInt8) (i : ℕ) : List UInt8 → ℕ → Mem UInt8
  | _, 0 => Function.update dst i 0
  | [], _ + 1 => Function.update dst i 0
  | c :: src, room + 1 =>
    if c ≠ 0 then stringCopyFrom (Function.update dst i c) (i + 1) src room
    else Function.update dst i 0

/-- `string_copy` -/
def stringCopy (dst : Mem UInt8) (src : List UInt8) (max : ℕ) : Mem UInt8 :=
  if max = 0 then dst else stringCopyFrom dst 0 src (max - 1)

/-- The part of `resolve_path` that writes the directory of a relative path: `pos` after it, or
none if it does not fit. -/
def resolveBase (currentDir : List UInt8) (out : Mem UInt8) (outSize : ℕ) : Option ℕ × Mem UInt8 :=
  if stringEqual currentDir rootPath then
    if 0 + 1 ≥ outSize then (none, out) else (some 1, Function.update out 0 slash)
  else
    let baseLen := stringLen currentDir
    if baseLen + 1 ≥ outSize then (none, out)
    else
      let out := copyLoop out 0 (ofList currentDir 0) baseLen
      if baseLen + 1 ≥ outSize then (none, out)
      else (some (baseLen + 1), Function.update out baseLen slash)

/-- The loop of `resolve_path` that appends the input, and the NUL after it. -/
def appendInput (outSize : ℕ) : List UInt8 → ℕ → Mem UInt8 → Bool × Mem UInt8
  | [], pos, out => (true, Function.update out pos 0)
  | c :: input, pos, out =>
    if c ≠ 0 then
      if pos + 1 ≥ outSize then (false, out)
      else appendInput outSize input (pos + 1) (Function.update out pos c)
    else (true, Function.update out pos 0)

/-- `resolve_path` -/
def resolvePath (currentDir input : List UInt8) (out : Mem UInt8) (outSize : ℕ) :
    Bool × Mem UInt8 :=
  if outSize = 0 then (false, out)
  else if input.headD 0 = 0 then (false, out)
  else if stringEqual input (ascii ".") then (true, stringCopy out currentDir outSize)
  else if input.headD 0 = slash then
    if stringLen input ≥ outSize then (false, out) else (true, stringCopy out input outSize)
  else
    match resolveBase currentDir out outSize with
    | (none, out) => (false, out)
    | (some pos, out) => appendInput outSize input pos out

/-! ## The resolved path -/

def baseOf (D : List UInt8) : List UInt8 := if D = rootPath then [slash] else D ++ [slash]

def pathIn (D s : List UInt8) : List UInt8 :=
  if s = ascii "." then D else if s.head? = some slash then s else baseOf D ++ s

variable {D currentDir input : List UInt8} {out : Mem UInt8} {n : ℕ}

theorem window_stringCopyFrom (src : List UInt8) (i room : ℕ) (out : Mem UInt8) :
    window (stringCopyFrom out i src room) (i + ((text src).take room).length + 1) =
      window out i ++ (text src).take room ++ [0] := by
  induction room generalizing out i src with
  | zero => simp [stringCopyFrom, window_update_succ]
  | succ room ih =>
    cases src with
    | nil => simp [stringCopyFrom, window_update_succ]
    | cons c src =>
      rw [stringCopyFrom]
      by_cases hc : c = 0
      · simp [hc, window_update_succ]
      · rw [if_pos hc, text_cons_of_ne hc, List.take_succ_cons, List.length_cons]
        have h := ih src (i + 1) (Function.update out i c)
        rw [window_update_succ] at h
        rw [show i + (((text src).take room).length + 1) + 1 =
          i + 1 + ((text src).take room).length + 1 by omega, h]
        simp

theorem length_baseOf (D : List UInt8) : D.length ≤ (baseOf D).length := by
  rw [baseOf]
  split
  · rename_i hroot
    rw [hroot]
  · rw [List.length_append]
    omega

theorem ne_zero_of_mem_baseOf {c : UInt8} (h : c ∈ baseOf (text currentDir)) : c ≠ 0 := by
  rw [baseOf] at h
  split at h
  · rw [List.mem_singleton.mp h]
    exact slash_ne_zero
  · rcases List.mem_append.mp h with h | h
    · exact ne_zero_of_mem_text h
    · rw [List.mem_singleton.mp h]
      exact slash_ne_zero

theorem text_window {s : List UInt8} (h : window out (s.length + 1) = s ++ [0])
    (hs : ∀ c ∈ s, c ≠ 0) (hn : s.length < n) : text (window out n) = s := by
  obtain ⟨k, rfl⟩ := Nat.exists_eq_add_of_le hn
  rw [window_add, h, List.append_assoc, List.singleton_append]
  exact text_append_zero hs _

theorem text_window_stringCopy (src : List UInt8) (out : Mem UInt8)
    (h : (text src).length < n) : text (window (stringCopy out src n) n) = text src := by
  have hcopy := window_stringCopyFrom src 0 (n - 1) out
  rw [List.take_of_length_le (by omega), Nat.zero_add, window_zero, List.nil_append] at hcopy
  rw [stringCopy, if_neg (by omega)]
  exact text_window hcopy (fun c hc => ne_zero_of_mem_text hc) h

theorem appendInput_cases (input : List UInt8) {pos : ℕ} (hpos : pos < n) (out : Mem UInt8) :
    (n ≤ pos + (text input).length ∧ (appendInput n input pos out).1 = false) ∨
    (pos + (text input).length < n ∧ (appendInput n input pos out).1 = true ∧
      window (appendInput n input pos out).2 (pos + (text input).length + 1) =
        window out pos ++ text input ++ [0]) := by
  induction input generalizing pos out with
  | nil => exact .inr ⟨hpos, rfl, by simp [appendInput, window_update_succ]⟩
  | cons c input ih =>
    rw [appendInput]
    by_cases hc : c = 0
    · rw [if_neg (not_not.mpr hc), hc, text_cons_zero]
      exact .inr ⟨hpos, rfl, by simp [window_update_succ]⟩
    · rw [if_pos hc, text_cons_of_ne hc, List.length_cons]
      by_cases hfull : pos + 1 ≥ n
      · rw [if_pos hfull]
        exact .inl ⟨by omega, rfl⟩
      · rw [if_neg hfull]
        have hpos : pos + 1 < n := by omega
        rcases ih hpos (Function.update out pos c) with ⟨hle, hfail⟩ | ⟨hlt, hok, hw⟩
        · exact .inl ⟨by omega, hfail⟩
        · refine .inr ⟨by omega, hok, ?_⟩
          rw [window_update_succ] at hw
          rw [show pos + ((text input).length + 1) + 1 = pos + 1 + (text input).length + 1 by omega,
            hw]
          simp

theorem window_ofList_text (s : List UInt8) :
    window (ofList s 0) (text s).length = text s := by
  have hcongr : window (ofList s 0) (text s).length = window (ofList (text s) 0) (text s).length :=
    window_congr fun i hi => getD_of_lt_length_text hi
  rw [hcongr, window_ofList]

theorem resolveBase_cases (currentDir : List UInt8) (n : ℕ) (out : Mem UInt8) :
    (∃ out', resolveBase currentDir out n = (none, out') ∧ n ≤ (text currentDir).length + 1) ∨
    ∃ out', resolveBase currentDir out n = (some (baseOf (text currentDir)).length, out') ∧
      (baseOf (text currentDir)).length < n ∧
      window out' (baseOf (text currentDir)).length = baseOf (text currentDir) := by
  unfold resolveBase baseOf
  by_cases hroot : text currentDir = rootPath
  · rw [if_pos ((stringEqual_iff _ _).mpr hroot), if_pos hroot]
    split
    · rename_i hfull
      exact .inl ⟨_, rfl, by omega⟩
    · rename_i hroom
      exact .inr ⟨_, rfl, by simpa using hroom, window_update_succ out 0 slash⟩
  · rw [if_neg fun h => hroot ((stringEqual_iff _ _).mp h), stringLen_eq, if_neg hroot,
      List.length_append, List.length_singleton]
    simp only
    split
    · rename_i hfull
      exact .inl ⟨_, rfl, by omega⟩
    · rename_i hroom
      refine .inr ⟨_, rfl, by omega, ?_⟩
      rw [window_update_succ, window_copyLoop_zero, window_ofList_text]

/-- A path resolves if it is not empty and fits, and then to the path that it names. -/
theorem resolvePath_cases (hD : (text currentDir).length < n) (input : List UInt8)
    (out : Mem UInt8) :
    (¬ (text input ≠ [] ∧ (pathIn (text currentDir) (text input)).length < n) ∧
      (resolvePath currentDir input out n).1 = false) ∨
    (text input ≠ [] ∧ (pathIn (text currentDir) (text input)).length < n ∧
      (resolvePath currentDir input out n).1 = true ∧
      text (window (resolvePath currentDir input out n).2 n) =
        pathIn (text currentDir) (text input)) := by
  unfold resolvePath
  rw [if_neg (by omega)]
  by_cases hempty : text input = []
  · rw [if_pos ((headD_eq_zero_iff input).mpr hempty)]
    exact .inl ⟨fun h => h.1 hempty, rfl⟩
  rw [if_neg fun h => hempty ((headD_eq_zero_iff input).mp h)]
  have hdottext : text (ascii ".") = ascii "." := by decide
  by_cases hdot : text input = ascii "."
  · have hJ : pathIn (text currentDir) (text input) = text currentDir := if_pos hdot
    rw [if_pos ((stringEqual_iff _ _).mpr (hdot.trans hdottext.symm)), hJ]
    exact .inr ⟨hempty, hD, rfl, text_window_stringCopy currentDir out hD⟩
  rw [if_neg fun h => hdot (((stringEqual_iff _ _).mp h).trans hdottext)]
  by_cases habs : (text input).head? = some slash
  · have hhead : input.headD 0 = slash := by
      obtain ⟨r, hr⟩ := List.head?_eq_some_iff.mp habs
      exact (headD_eq_iff slash_ne_zero input).mpr ⟨r, hr⟩
    have hJ : pathIn (text currentDir) (text input) = text input := by
      rw [pathIn, if_neg hdot, if_pos habs]
    rw [if_pos hhead, hJ, stringLen_eq]
    split
    · rename_i hfull
      exact .inl ⟨fun h => absurd h.2 (by omega), rfl⟩
    · rename_i hroom
      exact .inr ⟨hempty, by omega, rfl, text_window_stringCopy input out (by omega)⟩
  · have hhead : input.headD 0 ≠ slash := by
      intro h
      obtain ⟨r, hr⟩ := (headD_eq_iff slash_ne_zero input).mp h
      exact habs (by rw [hr]; rfl)
    rw [if_neg hhead]
    have hpos := List.length_pos_of_ne_nil hempty
    have hJ : pathIn (text currentDir) (text input) = baseOf (text currentDir) ++ text input := by
      rw [pathIn, if_neg hdot, if_neg habs]
    rw [hJ, List.length_append]
    rcases resolveBase_cases currentDir n out with ⟨out', he, hfull⟩ | ⟨out', he, hlt, hw⟩
    · rw [he]
      have hbase := length_baseOf (text currentDir)
      exact .inl ⟨fun h => absurd h.2 (by omega), rfl⟩
    · rw [he]
      simp only
      rcases appendInput_cases input hlt out' with ⟨hle, hfail⟩ | ⟨hroom, hok, hwindow⟩
      · exact .inl ⟨fun h => absurd h.2 (by omega), hfail⟩
      · refine .inr ⟨hempty, hroom, hok, ?_⟩
        rw [hw, ← List.length_append] at hwindow
        refine text_window hwindow (fun c hc => ?_) (by rw [List.length_append]; exact hroom)
        rcases List.mem_append.mp hc with hc | hc
        · exact ne_zero_of_mem_baseOf hc
        · exact ne_zero_of_mem_text hc

end Wnu.Shell
