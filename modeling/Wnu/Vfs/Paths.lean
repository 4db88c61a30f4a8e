import Wnu.Text.Components
import Wnu.Vfs.Nodes

/-! # Parents, base names and direct children

Creation takes the parent of a path at its last slash, listing tests that a
path is the directory's followed by a slash and a slash-free rest. Both string
algorithms are translated here and described on the paths they are given.
-/

namespace Wnu.Vfs

open Text Components

/-- The loop that leaves the index of the last slash, in `parent_path` and `path_basename`. -/
def lastSlash (path : List UInt8) : ℕ :=
  (List.range (stringLen path)).foldl (fun s i => if path.getD i 0 = slash then i else s) 0

/-- `parent_path` -/
def parentPath {n : ℕ} (path : List UInt8) (out : Vector UInt8 n) (outSize : ℕ) : Vector UInt8 n :=
  if stringLen path = 0 ∨ stringEqual path rootPath then stringCopy out rootPath outSize
  else if lastSlash path = 0 then stringCopy out rootPath outSize
  else stringCopy out (path.take (lastSlash path)) outSize

/-- `parent_exists_and_is_dir` -/
def parentExistsAndIsDir (t : Table) (path : List UInt8) : Bool :=
  let parent := parentPath path (Vector.replicate maxName 0) maxName
  match findNode t parent.toList with
  | none => false
  | some i => (t.nodes i).type = .dir

/-- `path_basename` -/
def pathBasename (path : List UInt8) : List UInt8 :=
  if stringLen path = 0 ∨ stringEqual path rootPath then rootPath
  else path.drop (lastSlash path + 1)

/-- `for (i = 0; rest[i] != '\\0'; ++i) if (rest[i] == '/') return 0;` -/
def slashFree : List UInt8 → Bool
  | [] => true
  | c :: rest => if c ≠ 0 then if c = slash then false else slashFree rest else true

/-- `is_direct_child` -/
def isDirectChild (parent child : List UInt8) : Bool :=
  if stringEqual parent child then false
  else if stringEqual parent rootPath then
    if child.headD 0 ≠ slash then false
    else
      let rest := child.drop 1
      if rest.headD 0 = 0 then false else slashFree rest
  else if !stringStartsWith child parent then false
  else if child.getD (stringLen parent) 0 ≠ slash then false
  else
    let rest := child.drop (stringLen parent + 1)
    if rest.headD 0 = 0 then false else slashFree rest

theorem slash_ne_zero : slash ≠ 0 := by decide

@[simp] theorem text_rootPath : text rootPath = rootPath := rfl

theorem foldl_last {P : ℕ → Prop} [DecidablePred P] {k n : ℕ} (a : ℕ) (hkn : k < n) (hk : P k)
    (h : ∀ i, k < i → i < n → ¬ P i) :
    (List.range n).foldl (fun s i => if P i then i else s) a = k := by
  induction n with
  | zero => omega
  | succ n ih =>
    rw [List.range_succ, List.foldl_append, List.foldl_cons, List.foldl_nil]
    rcases Nat.lt_succ_iff_lt_or_eq.mp hkn with hlt | rfl
    · rw [if_neg (h n hlt n.lt_succ_self), ih hlt fun i hi hin => h i hi (by omega)]
    · rw [if_pos hk]

theorem lastSlash_eq {path d b : List UInt8} (hb : slash ∉ b) (h : text path = d ++ slash :: b) :
    lastSlash path = d.length := by
  have hlen : (text path).length = d.length + (b.length + 1) := by simp [h]
  have hget (i : ℕ) (hi : i < (text path).length) :
      path.getD i 0 = (d ++ slash :: b).getD i 0 := by rw [getD_of_lt_length_text hi, h]
  rw [lastSlash, stringLen_eq]
  refine foldl_last 0 (by omega) ?_ fun i hi hin => ?_
  · rw [hget _ (by omega)]
    simp
  · rw [hget i hin]
    intro he
    have hmem : (d ++ slash :: b).getD i 0 ∈ b := by
      rw [List.getD_append_right _ _ _ _ hi.le,
        show i - d.length = (i - d.length - 1) + 1 by omega, List.getD_cons_succ,
        List.getD_eq_getElem _ _ (by omega)]
      exact List.getElem_mem _
    exact hb (he ▸ hmem)

theorem text_pathBasename {path : List UInt8} (hroot : text path ≠ rootPath)
    (hslash : slash ∈ text path) : text (pathBasename path) = base slash (text path) := by
  obtain ⟨d, b, hb, h⟩ := exists_split hslash
  have hlen : (text path).length = d.length + (b.length + 1) := by
    rw [h, List.length_append, List.length_cons]
  have hnot : ¬ (stringLen path = 0 ∨ stringEqual path rootPath = true) := by
    rw [stringEqual_iff, stringLen_eq]
    exact not_or.mpr ⟨by omega, hroot⟩
  rw [pathBasename, if_neg hnot, lastSlash_eq hb h, text_drop (by omega), h, base_append hb]
  simp

theorem text_parentPath {n : ℕ} {path r : List UInt8} (h : text path = slash :: r)
    (out : Vector UInt8 n) (hlen : (text path).length < n) :
    text (parentPath path out n).toList = parent slash (text path) := by
  have hn : 2 ≤ n := by rw [h, List.length_cons] at hlen; omega
  have hroot : text (stringCopy out rootPath n).toList = rootPath := by
    rw [text_stringCopy _ _ (by omega) le_rfl, text_rootPath]
    exact List.take_of_length_le (by simp; omega)
  obtain ⟨d, b, hb, hs⟩ := exists_split (show slash ∈ text path by simp [h])
  have hd0 : d = [] → parent slash (text path) = rootPath := by
    rintro rfl
    rw [hs]
    exact parent_cons hb
  rw [parentPath]
  split
  · rename_i hr
    have hp : text path = rootPath := by
      rcases hr with hr | hr
      · simp [h] at hr
      · simpa using (stringEqual_iff _ _).mp hr
    rw [hroot, hp]
    rfl
  · rw [lastSlash_eq hb hs]
    split
    · rename_i hl
      rw [hroot, hd0 (List.length_eq_zero_iff.mp hl)]
    · rename_i hl
      have hne : d ≠ [] := fun he => hl (by rw [he]; rfl)
      have htake : path.take d.length = d := by
        obtain ⟨q, hq⟩ := prefix_text path
        rw [← hq, hs, List.append_assoc, List.take_left]
      have hdt : text d = d := text_eq_self fun c hc =>
        ne_zero_of_mem_text (s := path) (by rw [hs]; exact List.mem_append_left _ hc)
      rw [text_stringCopy _ _ (by omega) le_rfl, htake, hdt, hs, parent_append hb hne]
      exact List.take_of_length_le (by rw [hs, List.length_append, List.length_cons] at hlen; omega)

/-- What `parent_path` leaves in a buffer of `WNU_VFS_MAX_NAME` bytes. -/
def parentOf (path : List UInt8) : List UInt8 :=
  text (parentPath path (Vector.replicate maxName 0) maxName).toList

theorem parentOf_eq {path r : List UInt8} (h : text path = slash :: r)
    (hlen : (text path).length < maxName) : parentOf path = parent slash (text path) :=
  text_parentPath h _ hlen

theorem slashFree_iff (s : List UInt8) : slashFree s = true ↔ slash ∉ text s := by
  induction s with
  | nil => simp [slashFree]
  | cons c s ih =>
    by_cases hc : c = 0
    · simp [slashFree, hc]
    · rcases eq_or_ne c slash with rfl | hs
      · simp [slashFree, text_cons_of_ne hc, hc]
      · simp [slashFree, text_cons_of_ne hc, hc, hs, Ne.symm hs, ih]

theorem component_iff (s : List UInt8) :
    (s.headD 0 = slash ∧ (s.drop 1).headD 0 ≠ 0 ∧ slashFree (s.drop 1) = true) ↔
      ∃ c, c ≠ [] ∧ slash ∉ c ∧ text s = slash :: c := by
  rw [headD_eq_iff slash_ne_zero, slashFree_iff, ne_eq, headD_eq_zero_iff]
  constructor
  · rintro ⟨⟨r, hr⟩, hne, hfree⟩
    rw [text_drop (by simp [hr]), hr] at hne hfree
    exact ⟨r, hne, hfree, hr⟩
  · rintro ⟨c, hne, hfree, hc⟩
    rw [text_drop (by simp [hc]), hc]
    exact ⟨⟨c, rfl⟩, hne, hfree⟩

theorem isDirectChild_root {child par : List UInt8} (hp : text par = rootPath) :
    isDirectChild par child = true ↔ ∃ c, c ≠ [] ∧ slash ∉ c ∧ text child = slash :: c := by
  rw [← component_iff]
  have hroot : stringEqual par rootPath = true := (stringEqual_iff _ _).mpr hp
  by_cases heq : text par = text child
  · -- the root is no child of itself
    have hbad : ¬ (child.drop 1).headD 0 ≠ 0 := by
      rw [not_not, headD_eq_zero_iff, text_drop (by simp [← heq, hp]), ← heq, hp]
      rfl
    refine iff_of_false ?_ fun h => hbad h.2.1
    simp [isDirectChild, (stringEqual_iff _ _).mpr heq]
  · have hneq : stringEqual par child = false := stringEqual_of_ne heq
    simp [isDirectChild, hneq, hroot]

theorem isDirectChild_of_ne_root {child par : List UInt8} (hp : text par ≠ rootPath) :
    isDirectChild par child = true ↔
      ∃ c, c ≠ [] ∧ slash ∉ c ∧ text child = text par ++ slash :: c := by
  have hroot : stringEqual par rootPath = false := stringEqual_of_ne hp
  by_cases hpre : text par <+: text child
  · have hdrop := text_drop (s := child) hpre.length_le
    have hchild : text child = text par ++ text (child.drop (text par).length) := by
      rw [hdrop]
      exact (List.prefix_iff_eq_append.mp hpre).symm
    have hiff : (∃ c, c ≠ [] ∧ slash ∉ c ∧ text child = text par ++ slash :: c) ↔
        ∃ c, c ≠ [] ∧ slash ∉ c ∧ text (child.drop (text par).length) = slash :: c := by
      rw [hchild]
      simp only [List.append_cancel_left_eq]
    rw [hiff, ← component_iff, List.drop_drop]
    by_cases heq : text par = text child
    · have hbad : ¬ (child.drop (text par).length).headD 0 = slash := by
        rw [headD_eq_iff slash_ne_zero, hdrop, heq, List.drop_length]
        simp
      refine iff_of_false ?_ fun h => hbad h.1
      simp [isDirectChild, (stringEqual_iff _ _).mpr heq]
    · have hneq : stringEqual par child = false := stringEqual_of_ne heq
      have hstart : stringStartsWith child par = true := (stringStartsWith_iff _ _).mpr hpre
      simp only [isDirectChild, hneq, hroot, hstart, stringLen_eq, getD_eq_headD_drop]
      simp
  · have hstart : stringStartsWith child par = false := by
      rw [← Bool.not_eq_true, stringStartsWith_iff]; exact hpre
    have hno : ¬ ∃ c, c ≠ [] ∧ slash ∉ c ∧ text child = text par ++ slash :: c := by
      rintro ⟨c, -, -, hc⟩
      exact hpre ⟨_, hc.symm⟩
    simp only [isDirectChild, hroot, hstart, hno]
    simp

/-- A path whose last component is not empty and whose parent needs one slash only. -/
def Proper (p : List UInt8) : Prop := base slash p ≠ [] ∧ dir slash p ≠ rootPath

instance : DecidablePred Proper := fun _ => inferInstanceAs (Decidable (_ ∧ _))

/-- Listing and creation agree on the parent exactly on proper paths. -/
theorem isDirectChild_iff {par child r : List UInt8} (hpar : text par ≠ [])
    (hchild : text child = slash :: r) :
    isDirectChild par child = true ↔
      parent slash (text child) = text par ∧ Proper (text child) := by
  obtain ⟨d, b, hb, hs⟩ := exists_split (show slash ∈ text child by simp [hchild])
  have hd : dir slash (text child) = d := by rw [hs, dir_append hb]
  have hbase : base slash (text child) = b := by rw [hs, base_append hb]
  rw [parent, Proper, hd, hbase]
  by_cases hroot : text par = rootPath
  · rw [isDirectChild_root hroot, hroot, hs]
    constructor
    · rintro ⟨c, hc, hfree, he⟩
      have hde := congrArg (dir slash) he
      have hbe := congrArg (base slash) he
      rw [dir_append hb, show slash :: c = [] ++ slash :: c from rfl, dir_append hfree] at hde
      rw [base_append hb, show slash :: c = [] ++ slash :: c from rfl, base_append hfree] at hbe
      subst hde hbe
      exact ⟨by simp, hc, by simp⟩
    · rintro ⟨hpd, hne, hdr⟩
      have hd0 : d = [] := by
        by_contra h
        rw [if_neg h] at hpd
        exact hdr hpd
      subst hd0
      exact ⟨b, hne, hb, rfl⟩
  · rw [isDirectChild_of_ne_root hroot, hs]
    constructor
    · rintro ⟨c, hc, hfree, he⟩
      have hde := congrArg (dir slash) he
      have hbe := congrArg (base slash) he
      rw [dir_append hb, dir_append hfree] at hde
      rw [base_append hb, base_append hfree] at hbe
      subst hbe
      rw [hde]
      exact ⟨by rw [if_neg hpar], hc, hroot⟩
    · rintro ⟨hpd, hne, -⟩
      split at hpd
      · exact absurd hpd.symm hroot
      · exact ⟨b, hne, hb, by rw [hpd]⟩

end Wnu.Vfs
