import Wnu.Fat32.Failure
import Wnu.Fat32.Confinement
import Wnu.Fat32.Import

/-! # Which entries become files

The loop over the directory skips every entry with one of the attribute bits 0x0f. The
mask is meant for the entries of long names, but it also drops the files that are
read-only, hidden or system files, and it lets directories pass, whose bit 0x10 is not
in it.
-/

namespace Wnu.Fat32

open Text Memory Components Vfs

variable {p : Mem UInt8} {o size : ℕ} {boot : Boot}

def listedEntries (p : Mem UInt8) (size : ℕ) : List ℕ :=
  (entryOffsets size).takeWhile fun o => p o ≠ 0x00

/-- An entry in use that is no volume label, no part of a long name and no directory. -/
def RegularEntry (p : Mem UInt8) (o : ℕ) : Prop :=
  p o ≠ 0xe5 ∧ p (o + 11) &&& 0x08 = 0 ∧ p (o + 11) &&& 0x10 = 0

def MaskedFile (p : Mem UInt8) (o : ℕ) : Prop := RegularEntry p o ∧ p (o + 11) &&& 0x07 ≠ 0

/-- A directory that is neither read-only nor hidden nor a system directory, unless it claims
to have contents and the size of sectors is not supported. -/
def BareDirectory (boot : Boot) (p : Mem UInt8) (o : ℕ) : Prop :=
  p o ≠ 0xe5 ∧ p (o + 11) &&& 0x1f = 0x10 ∧
    (filesize p o = 0 ∨ boot.bytesPerSector.toNat ≤ 4096)

def nameOf (p : Mem UInt8) (o : ℕ) : List UInt8 := text (shortName p o)

instance : Decidable (RegularEntry p o) := inferInstanceAs (Decidable (_ ∧ _ ∧ _))

instance : Decidable (MaskedFile p o) := inferInstanceAs (Decidable (_ ∧ _))

instance : Decidable (BareDirectory boot p o) := inferInstanceAs (Decidable (_ ∧ _ ∧ _))

/-- A directory whose regular files are empty and have distinct legal names. -/
structure EmptyFiles (p : Mem UInt8) (size : ℕ) : Prop where
  empty : ∀ o ∈ listedEntries p size, RegularEntry p o → filesize p o = 0
  legal : ∀ o ∈ listedEntries p size, RegularEntry p o → LegalName (shortName p o)
  distinct : ∀ o ∈ listedEntries p size, ∀ o' ∈ listedEntries p size, RegularEntry p o →
    RegularEntry p o' → shortName p o = shortName p o' → o = o'

def regularNames (p : Mem UInt8) (size : ℕ) : List (List UInt8) :=
  ((listedEntries p size).filter (RegularEntry p ·)).map (shortName p)

/-- A directory other than the root without children, whose path leaves room for a short name,
and free nodes for a number of files. -/
structure VacantDir (t : Table) (M : List UInt8) (k : ℕ) : Prop where
  dir : ∃ node, t.node M = some node ∧ node.type = .dir
  ne_root : M ≠ rootPath
  length_le : M.length ≤ 50
  childless : ∀ q, (t.node q).isSome → parent slash q ≠ M
  room : (Slots.usedSlots view t.nodes).card + k ≤ maxNodes

/-- The files of the second table that are not in the first. -/
def newFiles (t t' : Table) : Set (List UInt8) :=
  {q | t.node q = none ∧ ∃ node, t'.node q = some node ∧ node.type = .file}

/-- The new files are those of the regular entries. -/
def MountsRegular (p : Mem UInt8) (size : ℕ) (M : List UInt8) (t t' : Table) : Prop :=
  newFiles t t' = {q | ∃ name ∈ regularNames p size, q = M ++ slash :: name}

/-- The mask tells files from directories: a regular file that it drops has the name of a
directory that passes, and a directory that passes is empty and has the name of a regular file
or a name that cannot be created. -/
structure MaskSeparates (boot : Boot) (p : Mem UInt8) (size : ℕ) : Prop where
  files : ∀ o ∈ listedEntries p size, MaskedFile p o →
    ∃ o' ∈ listedEntries p size, BareDirectory boot p o' ∧ nameOf p o' = shortName p o
  dirs : ∀ o ∈ listedEntries p size, BareDirectory boot p o →
    filesize p o = 0 ∧ (slash ∉ nameOf p o → nameOf p o ∈ regularNames p size)

/-- A directory that passes claims to have contents, and its name is that of a regular file or
cannot be created. -/
def HidesContents (boot : Boot) (p : Mem UInt8) (size : ℕ) : Prop :=
  ∃ o ∈ listedEntries p size, BareDirectory boot p o ∧ filesize p o ≠ 0 ∧
    (slash ∉ nameOf p o → nameOf p o ∈ regularNames p size)

/-! ## The masks -/

def Passes (boot : Boot) (p : Mem UInt8) (o : ℕ) : Prop :=
  entryKind p o = .empty ∨ entryKind p o = .file ∧ boot.bytesPerSector.toNat ≤ 4096

theorem attribute_masks (a : UInt8) :
    (a &&& 0x0f = 0 ↔ a &&& 0x08 = 0 ∧ a &&& 0x07 = 0) ∧
      (a &&& 0x1f = 0x10 ↔ a &&& 0x0f = 0 ∧ a &&& 0x10 ≠ 0) := by
  obtain ⟨a⟩ := a
  revert a
  decide

theorem entryKind_last_iff : entryKind p o = .last ↔ p o = 0x00 := by
  unfold entryKind
  split_ifs <;> simp_all

theorem passes_iff (h0 : p o ≠ 0x00) :
    Passes boot p o ↔ p o ≠ 0xe5 ∧ p (o + 11) &&& 0x0f = 0 ∧
      (filesize p o = 0 ∨ boot.bytesPerSector.toNat ≤ 4096) := by
  obtain ⟨hmask, -⟩ := attribute_masks (p (o + 11))
  unfold Passes entryKind
  by_cases h5 : p o = 0xe5
  · simp [h5]
  by_cases h8 : p (o + 11) &&& 0x08 = 0
  swap
  · simp [h0, h5, h8, hmask]
  by_cases hf : p (o + 11) &&& 0x0f = 0
  swap
  · simp [h0, h5, h8, hf]
  by_cases hs : filesize p o = 0 <;> simp [h0, h5, h8, hf, hs]

theorem ne_zero_of_mem_listed (ho : o ∈ listedEntries p size) : p o ≠ 0x00 := by
  have h := List.mem_takeWhile_imp ho
  simpa using h

theorem EmptyFiles.nameOf_eq (h : EmptyFiles p size) (ho : o ∈ listedEntries p size)
    (hr : RegularEntry p o) : nameOf p o = shortName p o :=
  text_eq_self fun c hc => ((h.legal o ho hr).2 c hc).1

theorem EmptyFiles.passes_iff (h : EmptyFiles p size) (ho : o ∈ listedEntries p size) :
    Passes boot p o ↔ (RegularEntry p o ∧ ¬ MaskedFile p o) ∨ BareDirectory boot p o := by
  obtain ⟨hlow, hdir⟩ := attribute_masks (p (o + 11))
  have hempty := h.empty o ho
  rw [Fat32.passes_iff (ne_zero_of_mem_listed ho)]
  unfold MaskedFile BareDirectory
  rw [hdir]
  constructor
  · rintro ⟨h5, hf, hs⟩
    by_cases h4 : p (o + 11) &&& 0x10 = 0
    · have hr : RegularEntry p o := ⟨h5, (hlow.mp hf).1, h4⟩
      exact .inl ⟨hr, fun hm => hm.2 (hlow.mp hf).2⟩
    · exact .inr ⟨h5, ⟨hf, h4⟩, hs⟩
  · rintro (⟨hr, hm⟩ | ⟨h5, ⟨hf, -⟩, hs⟩)
    · exact ⟨hr.1, hlow.mpr ⟨hr.2.1, by_contra fun h7 => hm ⟨hr, h7⟩⟩, .inl (hempty hr)⟩
    · exact ⟨h5, hf, hs⟩

/-- An entry that passes is empty, and its name is that of a regular file or cannot be
created. -/
def Harmless (p : Mem UInt8) (size o : ℕ) : Prop :=
  filesize p o = 0 ∧ (slash ∉ nameOf p o → nameOf p o ∈ regularNames p size)

theorem mem_regularNames {name : List UInt8} : name ∈ regularNames p size ↔
    ∃ o ∈ listedEntries p size, RegularEntry p o ∧ shortName p o = name := by
  simp [regularNames, and_assoc]

theorem EmptyFiles.harmless (h : EmptyFiles p size) (ho : o ∈ listedEntries p size)
    (hr : RegularEntry p o) : Harmless p size o :=
  ⟨h.empty o ho hr, fun _ => mem_regularNames.mpr ⟨o, ho, hr, (h.nameOf_eq ho hr).symm⟩⟩

/-! ## New files in a directory without children -/

variable {t : Table} {M mountpoint : List UInt8} {k : ℕ} {m m' : Mount}

structure Filled (t : Table) (M : List UInt8) (names : List (List UInt8)) (m : Mount) : Prop where
  inv : Inv m.vfs
  nodup : names.Nodup
  free : ∀ name ∈ names, slash ∉ name
  card : (Slots.usedSlots view m.vfs.nodes).card =
    (Slots.usedSlots view t.nodes).card + names.length
  old : ∀ q, (∀ name ∈ names, q ≠ M ++ slash :: name) → m.vfs.node q = t.node q
  files : ∀ name ∈ names, ∃ node, m.vfs.node (M ++ slash :: name) = some node ∧ node.type = .file

variable {names : List (List UInt8)} {name : List UInt8}

theorem VacantDir.node_below (hM : VacantDir t M k) (h : Inv t) (rest : List UInt8) :
    t.node (M ++ slash :: rest) = none := by
  by_contra hn
  obtain ⟨node, hn⟩ := Option.ne_none_iff_exists'.mp hn
  obtain ⟨_, hdir, -⟩ := hM.dir
  obtain ⟨r, hr⟩ := (h.node _ _ hdir).1
  obtain ⟨c, child, hc, hpar⟩ := h.exists_child (by simp [hr]) hn (below_iff.mpr ⟨rest, rfl⟩)
  exact hM.childless c (Option.isSome_iff_exists.mpr ⟨child, hc⟩) hpar

theorem append_slash_inj {a b : List UInt8} : M ++ slash :: a = M ++ slash :: b ↔ a = b := by simp

theorem Filled.mounted (h : Filled t M names m) (hM : VacantDir t M k) :
    ∃ node, m.vfs.node M = some node ∧ node.type = .dir := by
  rw [h.old M fun name _ => ne_append_slash M name]
  exact hM.dir

theorem Filled.of_creatable (h : Filled t M names m) (hM : VacantDir t M k) (ht : Inv t)
    (c : Creatable m.vfs (M ++ slash :: name)) : slash ∉ name ∧ name ∉ names := by
  constructor
  · intro hslash
    obtain ⟨d, b, hb, rfl⟩ := exists_split hslash
    obtain ⟨node, hn, hdir⟩ := c.parent
    rw [parent_append_append M d hb] at hn
    by_cases hd : d ∈ names
    · obtain ⟨node', hn', hf⟩ := h.files d hd
      obtain rfl := Option.some.inj (hn.symm.trans hn')
      rw [hdir] at hf
      cases hf
    · have hother : ∀ a ∈ names, M ++ slash :: d ≠ M ++ slash :: a := by
        intro a ha he
        rw [append_slash_inj] at he
        exact hd (he ▸ ha)
      rw [h.old _ hother, hM.node_below ht] at hn
      cases hn
  · intro hmem
    obtain ⟨node, hn, -⟩ := h.files name hmem
    exact c.ne_of_node hn rfl

theorem Filled.creatable (h : Filled t M names m) (hM : VacantDir t M k) (ht : Inv t)
    (hlen : name.length ≤ 12) (hfree : slash ∉ name) (hnew : name ∉ names)
    (hroom : (Slots.usedSlots view m.vfs.nodes).card < maxNodes) :
    Creatable m.vfs (M ++ slash :: name) := by
  have hle := hM.length_le
  obtain ⟨node, hn, hdir⟩ := h.mounted hM
  refine h.inv.creatable_append hn hdir hfree (by rw [maxName]; omega) ?_ hroom
  have hother : ∀ a ∈ names, M ++ slash :: name ≠ M ++ slash :: a := by
    intro a ha he
    rw [append_slash_inj] at he
    exact hnew (he ▸ ha)
  rw [h.old _ hother]
  exact hM.node_below ht name

theorem length_nameOf_le (p : Mem UInt8) (o : ℕ) : (nameOf p o).length ≤ 12 :=
  List.IsPrefix.length_le (prefix_text _) |>.trans (length_shortName_le p o)

theorem Filled.of_vfs (h : Filled t M names m) (hv : m'.vfs = m.vfs) : Filled t M names m' := by
  obtain ⟨hinv, hnodup, hfree, hcard, hold, hfiles⟩ := h
  rw [← hv] at hinv hcard
  exact ⟨hinv, hnodup, hfree, hcard, by rwa [hv], by rwa [hv]⟩

theorem Filled.add (h : Filled t M names m) (hfree : slash ∉ name) (hnew : name ∉ names)
    {contents : List UInt8} (hadd : Added m.vfs m'.vfs (M ++ slash :: name) contents) :
    Filled t M (name :: names) m' where
  inv := hadd.inv
  nodup := List.nodup_cons.mpr ⟨hnew, h.nodup⟩
  free a ha := by
    rcases List.mem_cons.mp ha with rfl | ha
    · exact hfree
    · exact h.free a ha
  card := by rw [hadd.card, h.card, List.length_cons, Nat.add_assoc]
  old q hq := by
    rw [hadd.node q (hq name List.mem_cons_self),
      h.old q fun a ha => hq a (List.mem_cons_of_mem _ ha)]
  files a ha := by
    rcases List.mem_cons.mp ha with rfl | ha
    · obtain ⟨node, hn, hf, -⟩ := hadd.file
      exact ⟨node, hn, hf⟩
    · have hne : M ++ slash :: a ≠ M ++ slash :: name := by
        intro he
        rw [append_slash_inj] at he
        exact hnew (he ▸ ha)
      rw [hadd.node _ hne]
      exact h.files a ha

def addName (names : List (List UInt8)) (name : List UInt8) : List (List UInt8) :=
  if slash ∉ name ∧ name ∉ names then name :: names else names

theorem mem_addName {a : List UInt8} :
    a ∈ addName names name ↔ a ∈ names ∨ slash ∉ a ∧ a = name := by
  unfold addName
  split
  · next hnew =>
    rw [List.mem_cons]
    constructor
    · rintro (rfl | ha)
      · exact .inr ⟨hnew.1, rfl⟩
      · exact .inl ha
    · rintro (ha | ⟨-, rfl⟩)
      · exact .inr ha
      · exact .inl rfl
  · next hold =>
    constructor
    · exact .inl
    · rintro (ha | ⟨hfree, rfl⟩)
      · exact ha
      · by_contra ha
        exact hold ⟨hfree, ha⟩

theorem Filled.empty (h : Filled t (text mountpoint) names m)
    (hM : VacantDir t (text mountpoint) k) (ht : Inv t)
    (hname : nameOf (m.buffers .clusterBuf) o = name)
    (hroom : name ∉ names → slash ∉ name → (Slots.usedSlots view m.vfs.nodes).card < maxNodes)
    (dev : Device) (boot : Boot) (hk : entryKind (m.buffers .clusterBuf) o = .empty) :
    ∃ m', importEntry dev boot mountpoint o m = (true, m') ∧
      m'.buffers .clusterBuf = m.buffers .clusterBuf ∧
      Filled t (text mountpoint) (addName names name) m' := by
  have hcases := importEntry_cases dev boot mountpoint o m
  simp only [hk] at hcases
  have hparsed := wrote_parsed o m
  have hshort : name.length ≤ 12 := hname ▸ length_nameOf_le (m.buffers .clusterBuf) o
  have hpath := text_pathString_of_text hM.length_le hshort
    ((text_name_parsed o m).trans hname)
  refine ⟨_, hcases, ?_, ?_⟩
  · rw [clusterBuf_importEmpty]
    exact hparsed.buffers_of_ne (by decide)
  · have h' := h.of_vfs hparsed.vfs
    unfold addName
    split
    · next hnew =>
      have c := h'.creatable hM ht hshort hnew.1 hnew.2 (by
        rw [hparsed.vfs]
        exact hroom hnew.2 hnew.1)
      exact h'.add hnew.1 hnew.2 (importEmpty_of_creatable h'.inv hpath c).1
    · next hold =>
      exact h'.of_vfs
        (vfs_importEmpty_of_not_creatable hpath fun c => hold (h'.of_creatable hM ht c))

theorem importEntry_of_not_passes (dev : Device) (mountpoint : List UInt8)
    (hlast : entryKind (m.buffers .clusterBuf) o ≠ .last)
    (hp : ¬ Passes boot (m.buffers .clusterBuf) o) :
    ∃ m', importEntry dev boot mountpoint o m = (true, m') ∧
      m'.buffers .clusterBuf = m.buffers .clusterBuf ∧ m'.vfs = m.vfs := by
  have hcases := importEntry_cases dev boot mountpoint o m
  cases hk : entryKind (m.buffers .clusterBuf) o <;> simp only [hk] at hcases
  case last => exact absurd hk hlast
  case skipped =>
    obtain ⟨is, -, he⟩ := hcases
    exact ⟨_, he, rfl, rfl⟩
  case empty => exact absurd (.inl hk) hp
  case file =>
    have hsize : boot.bytesPerSector.toNat > Buffer.fatSectorBuf.size :=
      Nat.lt_of_not_le fun hle => hp (.inr ⟨hk, hle⟩)
    have hparsed := wrote_parsed o m
    rw [importFile, if_pos hsize] at hcases
    refine ⟨_, hcases, ?_, ?_⟩
    · rw [buffers_write]
      exact hparsed.buffers_of_ne (by decide)
    · rw [vfs_write]
      exact hparsed.vfs

theorem filesize_ne_zero_of_file (hk : entryKind p o = .file) : filesize p o ≠ 0 := by
  unfold entryKind at hk
  split_ifs at hk
  assumption

theorem length_le_of_nodup {R : List (List UInt8)} (hnodup : names.Nodup)
    (h : ∀ a ∈ names, a ∈ R) : names.length ≤ R.length :=
  (List.subperm_of_subset hnodup h).length_le

/-- Rounds that come to entries that are skipped or empty create the files of those that
pass. -/
theorem Filled.run (h : Filled t (text mountpoint) names m) {R : List (List UInt8)}
    (hM : VacantDir t (text mountpoint) R.length) (ht : Inv t) (dev : Device) (boot : Boot)
    {os : List ℕ} (rest : List ℕ) (hbuf : m.buffers .clusterBuf = p) (hsub : ∀ a ∈ names, a ∈ R)
    (hos : ∀ o ∈ os, entryKind p o ≠ .last ∧
      (Passes boot p o → filesize p o = 0 ∧ (slash ∉ nameOf p o → nameOf p o ∈ R))) :
    ∃ m' names', importEntries dev boot mountpoint (os ++ rest) m =
        importEntries dev boot mountpoint rest m' ∧ m'.buffers .clusterBuf = p ∧
      Filled t (text mountpoint) names' m' ∧ (∀ a ∈ names', a ∈ R) ∧
      ∀ a, a ∈ names' ↔ a ∈ names ∨ ∃ o ∈ os, Passes boot p o ∧ slash ∉ a ∧ a = nameOf p o := by
  induction os generalizing names m with
  | nil => exact ⟨m, names, rfl, hbuf, h, hsub, fun a => by simp⟩
  | cons o os ih =>
    obtain ⟨hlast, hgood⟩ := hos o List.mem_cons_self
    have hrest := fun o' ho' => hos o' (List.mem_cons_of_mem o ho')
    by_cases hp : Passes boot p o
    · obtain ⟨hzero, hname⟩ := hgood hp
      have hk : entryKind p o = .empty := by
        rcases hp with hk | ⟨hk, -⟩
        · exact hk
        · exact absurd hzero (filesize_ne_zero_of_file hk)
      have hadd : ∀ a ∈ addName names (nameOf p o), a ∈ R := by
        intro a ha
        rcases mem_addName.mp ha with ha | ⟨hfree, rfl⟩
        · exact hsub a ha
        · exact hname hfree
      have hroom : nameOf p o ∉ names → slash ∉ nameOf p o →
          (Slots.usedSlots view m.vfs.nodes).card < maxNodes := by
        intro hnew hfree
        have hle := length_le_of_nodup (List.nodup_cons.mpr ⟨hnew, h.nodup⟩) fun a ha => by
          rcases List.mem_cons.mp ha with rfl | ha
          · exact hname hfree
          · exact hsub a ha
        have hmax := hM.room
        rw [List.length_cons] at hle
        rw [h.card]
        omega
      obtain ⟨m₁, hround, hbuf₁, h₁⟩ := h.empty hM ht (by rw [hbuf]) hroom dev boot
        (by rw [hbuf]; exact hk)
      obtain ⟨m', names', he, hb, hf, hs, hmem⟩ := ih h₁ (hbuf₁.trans hbuf) hadd hrest
      refine ⟨m', names', ?_, hb, hf, hs, fun a => ?_⟩
      · rw [List.cons_append, importEntries, hround]
        exact he
      · rw [hmem, mem_addName, List.exists_mem_cons_iff, or_assoc]
        simp only [hp, true_and]
    · have hskip : ¬ Passes boot (m.buffers .clusterBuf) o := by rwa [hbuf]
      obtain ⟨m₁, hround, hbuf₁, hv⟩ := importEntry_of_not_passes dev mountpoint
        (by rw [hbuf]; exact hlast) hskip
      obtain ⟨m', names', he, hb, hf, hs, hmem⟩ :=
        ih (h.of_vfs hv) (hbuf₁.trans hbuf) hsub hrest
      refine ⟨m', names', ?_, hb, hf, hs, fun a => ?_⟩
      · rw [List.cons_append, importEntries, hround]
        exact he
      · rw [hmem, List.exists_mem_cons_iff]
        simp only [hp, false_and, false_or]

theorem vfs_importEntries_ended (dev : Device) (boot : Boot) (mountpoint : List UInt8) (os : List ℕ)
    (m : Mount) : (importEntries dev boot mountpoint
      (os.dropWhile fun o => m.buffers .clusterBuf o ≠ 0x00) m).vfs = m.vfs := by
  induction os with
  | nil => rfl
  | cons o os ih =>
    rw [List.dropWhile_cons]
    split
    · exact ih
    · next hlast =>
      have hk : entryKind (m.buffers .clusterBuf) o = .last :=
        entryKind_last_iff.mpr (by simpa using hlast)
      rw [importEntries_of_last _ _ _ hk, vfs_touch]

/-! ## What is created -/

theorem Filled.newFiles (h : Filled t M names m) (hM : VacantDir t M k) (ht : Inv t) :
    newFiles t m.vfs = {q | ∃ name ∈ names, q = M ++ slash :: name} := by
  ext q
  constructor
  · rintro ⟨hnone, node, hn, -⟩
    by_contra hq
    rw [h.old q fun name hname he => hq ⟨name, hname, he⟩, hnone] at hn
    cases hn
  · rintro ⟨name, hname, rfl⟩
    exact ⟨hM.node_below ht name, h.files name hname⟩

theorem mountsRegular_iff {t' : Table}
    (h : newFiles t t' = {q | ∃ name ∈ names, q = M ++ slash :: name}) :
    MountsRegular p size M t t' ↔ ∀ a, a ∈ names ↔ a ∈ regularNames p size := by
  have hmem (l : List (List UInt8)) (a : List UInt8) :
      (∃ name ∈ l, M ++ slash :: a = M ++ slash :: name) ↔ a ∈ l := by
    simp only [append_slash_inj]
    constructor
    · rintro ⟨name, hname, rfl⟩
      exact hname
    · intro ha
      exact ⟨a, ha, rfl⟩
  rw [MountsRegular, h]
  constructor
  · intro he a
    have ha : M ++ slash :: a ∈ {q | ∃ name ∈ names, q = M ++ slash :: name} ↔
        M ++ slash :: a ∈ {q | ∃ name ∈ regularNames p size, q = M ++ slash :: name} := by
      rw [he]
    exact (hmem names a).symm.trans (ha.trans (hmem (regularNames p size) a))
  · intro ha
    ext q
    simp only [Set.mem_ofPred_eq, ha]

/-- When everything that passes is harmless, the loop creates the files of what passes. -/
theorem importEntries_of_harmless (dev : Device) (h : Inv m.vfs) (hbuf : m.buffers .clusterBuf = p)
    (hM : VacantDir m.vfs (text mountpoint) (regularNames p size).length)
    (hgood : ∀ o ∈ listedEntries p size, Passes boot p o → Harmless p size o) :
    ∃ names : List (List UInt8),
      newFiles m.vfs (importEntries dev boot mountpoint (entryOffsets size) m).vfs =
        {q | ∃ name ∈ names, q = text mountpoint ++ slash :: name} ∧
      (∀ a ∈ names, a ∈ regularNames p size) ∧
      ∀ a, a ∈ names ↔
        ∃ o ∈ listedEntries p size, Passes boot p o ∧ slash ∉ a ∧ a = nameOf p o := by
  have hstart : Filled m.vfs (text mountpoint) [] m :=
    ⟨h, List.nodup_nil, by simp, rfl, fun _ _ => rfl, by simp⟩
  obtain ⟨m', names, he, hb, hf, hsub, hmem⟩ := hstart.run hM h dev boot
    ((entryOffsets size).dropWhile fun o => p o ≠ 0x00) hbuf (by simp) fun o ho =>
      ⟨fun hk => ne_zero_of_mem_listed ho (entryKind_last_iff.mp hk), hgood o ho⟩
  rw [listedEntries, List.takeWhile_append_dropWhile] at he
  refine ⟨names, ?_, hsub, fun a => by simpa using hmem a⟩
  have hend := vfs_importEntries_ended dev boot mountpoint (entryOffsets size) m'
  rw [hb] at hend
  rw [he, newFiles, hend]
  exact hf.newFiles hM h

theorem MaskSeparates.harmless (hs : MaskSeparates boot p size) (h : EmptyFiles p size)
    (ho : o ∈ listedEntries p size) (hp : Passes boot p o) : Harmless p size o := by
  rcases (h.passes_iff ho).mp hp with ⟨hr, -⟩ | hb
  · exact h.harmless ho hr
  · exact hs.dirs o ho hb

theorem mountsRegular_of_separates (dev : Device) (h : Inv m.vfs) (hbuf : m.buffers .clusterBuf = p)
    (hp : EmptyFiles p size) (hM : VacantDir m.vfs (text mountpoint) (regularNames p size).length)
    (hs : MaskSeparates boot p size) :
    MountsRegular p size (text mountpoint) m.vfs
      (importEntries dev boot mountpoint (entryOffsets size) m).vfs := by
  obtain ⟨names, hnew, hsub, hmem⟩ := importEntries_of_harmless dev h hbuf hM
    fun o ho => hs.harmless hp ho
  refine (mountsRegular_iff hnew).mpr fun a => ⟨hsub a, fun ha => ?_⟩
  obtain ⟨o, ho, hr, rfl⟩ := mem_regularNames.mp ha
  have hfree : slash ∉ shortName p o := fun hmem => ((hp.legal o ho hr).2 _ hmem).2 rfl
  by_cases hmask : MaskedFile p o
  · obtain ⟨o', ho', hb, hname⟩ := hs.files o ho hmask
    exact (hmem _).mpr ⟨o', ho', (hp.passes_iff ho').mpr (.inr hb), hfree, hname.symm⟩
  · exact (hmem _).mpr ⟨o, ho, (hp.passes_iff ho).mpr (.inl ⟨hr, hmask⟩), hfree,
      (hp.nameOf_eq ho hr).symm⟩

/-- An entry that passes, whose name can be created and is not that of a regular file, becomes
a file, whatever its size and whatever comes after it. -/
theorem not_mountsRegular_of_stray (dev : Device) (h : Inv m.vfs) (hbuf : m.buffers .clusterBuf = p)
    (hM : VacantDir m.vfs (text mountpoint) (regularNames p size).length)
    (hroom : (Slots.usedSlots view m.vfs.nodes).card + (regularNames p size).length < maxNodes)
    {pre post : List ℕ} (hsplit : entryOffsets size = pre ++ o :: post)
    (hpre : ∀ o ∈ pre, p o ≠ 0x00 ∧ (Passes boot p o → Harmless p size o))
    (hpass : Passes boot p o) (hfree : slash ∉ nameOf p o)
    (hstray : nameOf p o ∉ regularNames p size) :
    ¬ MountsRegular p size (text mountpoint) m.vfs
      (importEntries dev boot mountpoint (entryOffsets size) m).vfs := by
  have hstart : Filled m.vfs (text mountpoint) [] m :=
    ⟨h, List.nodup_nil, by simp, rfl, fun _ _ => rfl, by simp⟩
  obtain ⟨m₁, names, he, hb, hf, hsub, -⟩ := hstart.run hM h dev boot (o :: post) hbuf
    (by simp) fun o ho => ⟨fun hk => (hpre o ho).1 (entryKind_last_iff.mp hk), (hpre o ho).2⟩
  have hle := length_le_of_nodup hf.nodup hsub
  have c := hf.creatable hM h (length_nameOf_le p o) hfree (fun ha => hstray (hsub _ ha)) (by
    rw [hf.card]
    omega)
  have hname₁ : text (shortName (m₁.buffers .clusterBuf) o) = nameOf p o := by
    rw [hb]
    rfl
  have hpass₁ : Passes boot (m₁.buffers .clusterBuf) o := by rwa [hb]
  obtain ⟨m₂, contents, hround, hadd⟩ :=
    importEntry_of_creatable dev hf.inv hM.length_le hname₁ hpass₁ c
  obtain ⟨dir, hdir, -⟩ := hf.mounted hM
  have hstays := added_stays hadd (Option.isSome_iff_exists.mpr ⟨dir, hdir⟩) dev boot post
  intro hmounts
  have hmem : text mountpoint ++ slash :: nameOf p o ∈ newFiles m.vfs
      (importEntries dev boot mountpoint (entryOffsets size) m).vfs := by
    rw [hsplit, he, importEntries, hround]
    exact ⟨hM.node_below h _, hstays⟩
  rw [hmounts] at hmem
  obtain ⟨name, hreg, heq⟩ := hmem
  rw [append_slash_inj] at heq
  exact hstray (heq ▸ hreg)

theorem forall_or_first {α : Type*} (P : α → Prop) (l : List α) :
    (∀ a ∈ l, P a) ∨ ∃ pre a post, l = pre ++ a :: post ∧ (∀ b ∈ pre, P b) ∧ ¬ P a := by
  induction l with
  | nil => exact .inl (by simp)
  | cons a l ih =>
    by_cases ha : P a
    · rcases ih with h | ⟨pre, b, post, rfl, hpre, hb⟩
      · refine .inl fun b hb => ?_
        rcases List.mem_cons.mp hb with rfl | hb
        · exact ha
        · exact h b hb
      · refine .inr ⟨a :: pre, b, post, rfl, fun c hc => ?_, hb⟩
        rcases List.mem_cons.mp hc with rfl | hc
        · exact ha
        · exact hpre c hc
    · exact .inr ⟨[], a, l, rfl, by simp, ha⟩

theorem separates_of_mountsRegular (dev : Device) (h : Inv m.vfs)
    (hbuf : m.buffers .clusterBuf = p) (hp : EmptyFiles p size)
    (hM : VacantDir m.vfs (text mountpoint) (regularNames p size).length)
    (hroom : (Slots.usedSlots view m.vfs.nodes).card + (regularNames p size).length < maxNodes)
    (hhides : ¬ HidesContents boot p size)
    (hmounts : MountsRegular p size (text mountpoint) m.vfs
      (importEntries dev boot mountpoint (entryOffsets size) m).vfs) :
    MaskSeparates boot p size := by
  rcases forall_or_first (fun o => Passes boot p o → Harmless p size o)
    (listedEntries p size) with hgood | ⟨pre, o, post, hlisted, hpre, hbad⟩
  · refine ⟨fun o ho hmask => ?_, fun o ho hb => hgood o ho ((hp.passes_iff ho).mpr (.inr hb))⟩
    obtain ⟨names, hnew, -, hmem⟩ := importEntries_of_harmless dev h hbuf hM hgood
    have hreg : shortName p o ∈ regularNames p size := mem_regularNames.mpr ⟨o, ho, hmask.1, rfl⟩
    obtain ⟨o', ho', hpass, -, hname⟩ :=
      (hmem _).mp (((mountsRegular_iff hnew).mp hmounts _).mpr hreg)
    rcases (hp.passes_iff ho').mp hpass with ⟨hr, hkept⟩ | hb
    · -- the names of regular files are distinct
      rw [hp.nameOf_eq ho' hr] at hname
      obtain rfl := hp.distinct o ho o' ho' hmask.1 hr hname
      exact absurd hmask hkept
    · exact ⟨o', ho', hb, hname.symm⟩
  · exfalso
    have ho : o ∈ listedEntries p size := by rw [hlisted]; simp
    obtain ⟨hpass, hharm⟩ : Passes boot p o ∧ ¬ Harmless p size o := by
      push Not at hbad
      exact hbad
    have hb : BareDirectory boot p o := by
      rcases (hp.passes_iff ho).mp hpass with ⟨hr, -⟩ | hb
      · exact absurd (hp.harmless ho hr) hharm
      · exact hb
    have hname : ¬ (slash ∉ nameOf p o → nameOf p o ∈ regularNames p size) := by
      intro hname
      by_cases hzero : filesize p o = 0
      · exact hharm ⟨hzero, hname⟩
      · exact hhides ⟨o, ho, hb, hzero, hname⟩
    push Not at hname
    have hsplit : entryOffsets size =
        pre ++ o :: (post ++ (entryOffsets size).dropWhile fun o => p o ≠ 0x00) := by
      have happend := List.takeWhile_append_dropWhile (p := fun o => decide (p o ≠ 0x00))
        (l := entryOffsets size)
      rw [← listedEntries, hlisted] at happend
      simpa using happend.symm
    refine not_mountsRegular_of_stray dev h hbuf hM hroom hsplit (fun b hb => ?_) hpass hname.1
      hname.2 hmounts
    have hbl : b ∈ listedEntries p size := by
      rw [hlisted]
      exact List.mem_append_left _ hb
    exact ⟨ne_zero_of_mem_listed hbl, hpre b hb⟩

/-! ## The mount -/

/-- A device whose boot sector and root directory can be read, with sizes that are accepted. -/
structure Accepted (dev : Device) (m : Mount) : Prop where
  found : dev.found = true
  booted : (dev.read m.reads.length ⟨0, .sector, 1⟩ (m.buffers .sector)).1 = true
  sectorSize : (diskBoot dev m).bytesPerSector ≠ 0
  clusterSize_le : (diskBoot dev m).clusterSize ≤ 8192
  root : rootAnswer dev (diskBoot dev m) (m.reads.length + 1) m = true

/-- What `cluster_buf` holds after the read of the root directory. -/
def rootDirectory (dev : Device) (m : Mount) : Mem UInt8 :=
  (dev.read (m.reads.length + 1) ⟨(diskBoot dev m).sectorOfCluster (diskBoot dev m).rootCluster,
    .clusterBuf, (diskBoot dev m).sectorsPerCluster.toNat⟩ (m.buffers .clusterBuf)).2

theorem diskBoot_image (image : Mem UInt8) (m : Mount) :
    diskBoot (imageDevice image) m = bootOf image := bootOf_image image _ _

theorem accepted_image {image : Mem UInt8} (m : Mount) (hbps : (bootOf image).bytesPerSector ≠ 0)
    (hsize : (bootOf image).clusterSize ≤ 8192) : Accepted (imageDevice image) m := by
  rw [← diskBoot_image image m] at hbps hsize
  exact ⟨rfl, rfl, hbps, hsize, rfl⟩

theorem rootDirectory_image (image : Mem UInt8) (m : Mount) :
    rootDirectory (imageDevice image) m = fun j =>
      if j < 512 * (bootOf image).sectorsPerCluster.toNat then
        image (512 * ((bootOf image).sectorOfCluster (bootOf image).rootCluster).toNat + j)
      else m.buffers .clusterBuf j := by
  funext j
  have hread : rootDirectory (imageDevice image) m j =
      copyLoop (m.buffers .clusterBuf) 0 (fun i =>
        image (512 * ((bootOf image).sectorOfCluster (bootOf image).rootCluster).toNat + i))
        (512 * (bootOf image).sectorsPerCluster.toNat) j := by
    rw [rootDirectory, diskBoot_image]
    rfl
  refine hread.trans ((copyLoop_apply ..).trans ?_)
  simp only [Nat.zero_le, true_and, Nat.zero_add, Nat.sub_zero]

theorem exists'_of_node {node : Node} (hn : t.node (text mountpoint) = some node) :
    exists' t mountpoint = true := by
  obtain ⟨i, hi, -⟩ := find_of_node_eq_some hn
  rw [exists', hi]
  rfl

theorem fat32Mount_of_accepted (ha : Accepted dev m) (hexists : exists' m.vfs mountpoint = true) :
    ∃ m₀, m₀.vfs = m.vfs ∧ m₀.buffers .clusterBuf = rootDirectory dev m ∧
      fat32Mount dev mountpoint m = (true, (importEntries dev (diskBoot dev m) mountpoint
        (entryOffsets (diskBoot dev m).clusterSize) m₀).write "fat32: mounted\n") := by
  have hens : ensureMountpoint mountpoint (bootRead dev m) = (true, bootRead dev m) :=
    ensureMountpoint_of_exists hexists
  have hbuf : (bootRead dev m).buffers .clusterBuf = m.buffers .clusterBuf := by
    rw [bootRead, buffers_touch]
    exact buffers_blockRead_of_ne _ _ (by decide) _ _
  have hread : (blockRead dev ((diskBoot dev m).sectorOfCluster (diskBoot dev m).rootCluster)
      .clusterBuf (diskBoot dev m).sectorsPerCluster.toNat (bootRead dev m)).1 = true := by
    have hroot := ha.root
    rw [rootAnswer, ← hbuf] at hroot
    exact hroot
  refine ⟨rootRead dev (diskBoot dev m) mountpoint (bootRead dev m), ?_, ?_, ?_⟩
  · rw [rootRead, hens]
    rfl
  · rw [rootRead, hens, buffers_blockRead, rootDirectory, ← hbuf]
    rfl
  · have hmount : mountBoot dev (diskBoot dev m) mountpoint (bootRead dev m) = _ :=
      mountBoot_of_accepted ha.sectorSize (.inl hexists) ha.clusterSize_le
    rw [fat32Mount_eq_mountBoot mountpoint ha.found ha.booted]
    refine hmount.trans ?_
    rw [hens, hread, if_pos rfl]

/-- For every device with an accepted root directory of empty files, every reachable state and
every mountpoint without children: the mount creates the files of the regular entries if the
mask tells files from directories. It does so only then, unless a node is wanting or a
directory hides that it claims to have contents. -/
theorem fat32Mount_mountsRegular (dev : Device) (h : Reachable m.vfs) (ha : Accepted dev m)
    (hp : EmptyFiles (rootDirectory dev m) (diskBoot dev m).clusterSize)
    (hM : VacantDir m.vfs (text mountpoint)
      (regularNames (rootDirectory dev m) (diskBoot dev m).clusterSize).length) :
    (MaskSeparates (diskBoot dev m) (rootDirectory dev m) (diskBoot dev m).clusterSize →
      MountsRegular (rootDirectory dev m) (diskBoot dev m).clusterSize (text mountpoint) m.vfs
        (fat32Mount dev mountpoint m).2.vfs) ∧
    (¬ HidesContents (diskBoot dev m) (rootDirectory dev m) (diskBoot dev m).clusterSize →
      (Slots.usedSlots view m.vfs.nodes).card +
        (regularNames (rootDirectory dev m) (diskBoot dev m).clusterSize).length < maxNodes →
      MountsRegular (rootDirectory dev m) (diskBoot dev m).clusterSize (text mountpoint) m.vfs
        (fat32Mount dev mountpoint m).2.vfs →
      MaskSeparates (diskBoot dev m) (rootDirectory dev m) (diskBoot dev m).clusterSize) := by
  obtain ⟨node, hn, -⟩ := hM.dir
  obtain ⟨m₀, hv, hbuf, he⟩ := fat32Mount_of_accepted ha (exists'_of_node hn)
  have hinv := h.inv
  rw [he, vfs_write]
  rw [← hv] at hinv hM ⊢
  constructor
  · intro hs
    exact mountsRegular_of_separates dev hinv hbuf hp hM hs
  · intro hhides hroom hmounts
    exact separates_of_mountsRegular dev hinv hbuf hp hM hroom hhides hmounts

/-- The root directory holds the file `A` and the hidden directory `D`. -/
def hiddenDirectory : Mem UInt8 :=
  sparseImage (smallBoot ++ smallEntry 0 'A'.toUInt8 0 0 ++ smallEntry 1 'D'.toUInt8 3 0 ++
    [(1035, 0x20), (1067, 0x12)])

/-- The root directory holds the read-only file `R` and the directory `D`. -/
def readOnlyFile : Mem UInt8 :=
  sparseImage (smallBoot ++ smallEntry 0 'R'.toUInt8 0 0 ++ smallEntry 1 'D'.toUInt8 3 0 ++
    [(1035, 0x01), (1067, 0x10)])

theorem vacantDir_tmp : VacantDir (init staticTable) (text (ascii "/tmp")) 1 where
  dir := emptyDir_tmp.dir
  ne_root := emptyDir_tmp.ne_root
  length_le := emptyDir_tmp.length_le
  childless q hq := by
    have h : ∀ i, ((init staticTable).nodes i).used = true →
        parent slash ((init staticTable).nodes i).name ≠ text (ascii "/tmp") := by
      decide +kernel
    obtain ⟨node, hn⟩ := Option.isSome_iff_exists.mp hq
    obtain ⟨i, hi, hname, -⟩ :=
      (node_eq_some_iff (reachable_init staticTable).inv.distinct).mp hn
    rw [← hname]
    exact h i hi
  room := by decide +kernel

def freshMount : Mount := Mount.start (init staticTable) fun _ _ => 0

theorem accepted_hiddenDirectory : Accepted (imageDevice hiddenDirectory) freshMount :=
  accepted_image freshMount (by decide +kernel) (by decide +kernel)

theorem emptyFiles_hiddenDirectory :
    EmptyFiles (rootDirectory (imageDevice hiddenDirectory) freshMount)
      (diskBoot (imageDevice hiddenDirectory) freshMount).clusterSize := by
  rw [rootDirectory_image, diskBoot_image]
  exact ⟨by decide +kernel, by decide +kernel, by decide +kernel⟩

theorem reachable_freshMount : Reachable freshMount.vfs := reachable_start fun _ _ => 0

/-- Only `A` is mounted. -/
theorem fat32Mount_mountsRegular_hiddenDirectory :
    MountsRegular (rootDirectory (imageDevice hiddenDirectory) freshMount)
      (diskBoot (imageDevice hiddenDirectory) freshMount).clusterSize (text (ascii "/tmp"))
      freshMount.vfs
        (fat32Mount (imageDevice hiddenDirectory) (ascii "/tmp") freshMount).2.vfs := by
  have hnames : regularNames (rootDirectory (imageDevice hiddenDirectory) freshMount)
      (diskBoot (imageDevice hiddenDirectory) freshMount).clusterSize = [ascii "A"] := by
    rw [rootDirectory_image, diskBoot_image]
    decide +kernel
  have hM : VacantDir freshMount.vfs (text (ascii "/tmp"))
      (regularNames (rootDirectory (imageDevice hiddenDirectory) freshMount)
        (diskBoot (imageDevice hiddenDirectory) freshMount).clusterSize).length := by
    rw [hnames, freshMount, Mount.vfs_start]
    exact vacantDir_tmp
  have hs : MaskSeparates (diskBoot (imageDevice hiddenDirectory) freshMount)
      (rootDirectory (imageDevice hiddenDirectory) freshMount)
      (diskBoot (imageDevice hiddenDirectory) freshMount).clusterSize := by
    rw [rootDirectory_image, diskBoot_image]
    exact ⟨by decide +kernel, by decide +kernel⟩
  exact (fat32Mount_mountsRegular (imageDevice hiddenDirectory) reachable_freshMount
    accepted_hiddenDirectory emptyFiles_hiddenDirectory hM).1 hs

theorem accepted_readOnlyFile : Accepted (imageDevice readOnlyFile) freshMount :=
  accepted_image freshMount (by decide +kernel) (by decide +kernel)

theorem emptyFiles_readOnlyFile :
    EmptyFiles (rootDirectory (imageDevice readOnlyFile) freshMount)
      (diskBoot (imageDevice readOnlyFile) freshMount).clusterSize := by
  rw [rootDirectory_image, diskBoot_image]
  exact ⟨by decide +kernel, by decide +kernel, by decide +kernel⟩

/-- The mount makes a file of the directory `D` and none of the read-only file `R`. -/
theorem not_mountsRegular_readOnlyFile :
    Reachable freshMount.vfs ∧ Accepted (imageDevice readOnlyFile) freshMount ∧
      EmptyFiles (rootDirectory (imageDevice readOnlyFile) freshMount)
        (diskBoot (imageDevice readOnlyFile) freshMount).clusterSize ∧
      VacantDir freshMount.vfs (text (ascii "/tmp"))
        (regularNames (rootDirectory (imageDevice readOnlyFile) freshMount)
          (diskBoot (imageDevice readOnlyFile) freshMount).clusterSize).length ∧
      ¬ MountsRegular (rootDirectory (imageDevice readOnlyFile) freshMount)
        (diskBoot (imageDevice readOnlyFile) freshMount).clusterSize (text (ascii "/tmp"))
        freshMount.vfs (fat32Mount (imageDevice readOnlyFile) (ascii "/tmp") freshMount).2.vfs := by
  have hnames : regularNames (rootDirectory (imageDevice readOnlyFile) freshMount)
      (diskBoot (imageDevice readOnlyFile) freshMount).clusterSize = [ascii "R"] := by
    rw [rootDirectory_image, diskBoot_image]
    decide +kernel
  have hM : VacantDir freshMount.vfs (text (ascii "/tmp"))
      (regularNames (rootDirectory (imageDevice readOnlyFile) freshMount)
        (diskBoot (imageDevice readOnlyFile) freshMount).clusterSize).length := by
    rw [hnames, freshMount, Mount.vfs_start]
    exact vacantDir_tmp
  refine ⟨reachable_freshMount, accepted_readOnlyFile, emptyFiles_readOnlyFile, hM, ?_⟩
  have hnone : freshMount.vfs.node (ascii "/tmp/D") = none := by decide +kernel
  have hfile : ((fat32Mount (imageDevice readOnlyFile) (ascii "/tmp") freshMount).2.vfs.node
      (ascii "/tmp/D")).map Node.type = some .file := by
    decide +kernel
  obtain ⟨node, hn, hf⟩ := Option.map_eq_some_iff.mp hfile
  intro hmounts
  have hmem : ascii "/tmp/D" ∈ newFiles freshMount.vfs
      (fat32Mount (imageDevice readOnlyFile) (ascii "/tmp") freshMount).2.vfs :=
    ⟨hnone, node, hn, hf⟩
  rw [hmounts] at hmem
  obtain ⟨name, hname, heq⟩ := hmem
  rw [hnames, List.mem_singleton] at hname
  subst hname
  exact absurd heq (by decide)

end Wnu.Fat32
