import Wnu.Fat32.Attributes
import Wnu.Fat32.Termination

/-! # The rounds of a mount

A mount that does not fail runs the loop over the directory, round by round. A round
creates the file of its entry or no file. No later round changes what it wrote, and
every new file of the mount is that of a round.
-/

namespace Wnu.Fat32

open Text Memory Vfs

/-- A round of the loop over the directory: the offset of its entry and the state before it. -/
structure Round where
  offset : ℕ
  before : Mount

variable {dev : Device} {boot : Boot} {mountpoint p : List UInt8} {m : Mount} {r : Round}

namespace Round

def bytes (r : Round) : Mem UInt8 := r.before.buffers .clusterBuf

def name (r : Round) : List UInt8 := nameOf r.bytes r.offset

def start (r : Round) : UInt32 := startCluster r.bytes r.offset

def size (r : Round) : ℕ := (filesize r.bytes r.offset).toNat

def after (dev : Device) (boot : Boot) (mountpoint : List UInt8) (r : Round) : Mount :=
  (importEntry dev boot mountpoint r.offset r.before).2

def Creates (dev : Device) (boot : Boot) (mountpoint : List UInt8) (r : Round)
    (p : List UInt8) : Prop :=
  r.before.vfs.node p = none ∧ ((r.after dev boot mountpoint).vfs.node p).isSome

def Adds (boot : Boot) (mountpoint : List UInt8) (r : Round) : Prop :=
  Passes boot r.bytes r.offset ∧ Creatable r.before.vfs (joined mountpoint r.name)

def chain (dev : Device) (boot : Boot) (r : Round) : ℕ × Mount :=
  readChain dev boot chainFuel r.start r.size 0 (parsed r.offset r.before)

def contents (dev : Device) (boot : Boot) (r : Round) : List UInt8 :=
  if r.size = 0 then [] else window ((r.chain dev boot).2.buffers .fileBuf) (r.chain dev boot).1

end Round

def roundsFrom (dev : Device) (boot : Boot) (mountpoint : List UInt8) :
    List ℕ → Mount → List Round
  | [], _ => []
  | offset :: offsets, m =>
    let (goOn, m') := importEntry dev boot mountpoint offset m
    ⟨offset, m⟩ :: if goOn then roundsFrom dev boot mountpoint offsets m' else []

def firstState (dev : Device) (mountpoint : List UInt8) (m : Mount) : Mount :=
  rootRead dev (diskBoot dev m) mountpoint (bootRead dev m)

/-- The rounds of a mount. A mount that fails has none. -/
def rounds (dev : Device) (mountpoint : List UInt8) (m : Mount) : List Round :=
  if (fat32Mount dev mountpoint m).1 then
    roundsFrom dev (diskBoot dev m) mountpoint (entryOffsets (diskBoot dev m).clusterSize)
      (firstState dev mountpoint m)
  else []

/-! ## One round -/

theorem readChain_fst_le (dev : Device) (boot : Boot) (fuel : ℕ) (cluster : UInt32)
    (bytesLeft : ℕ) {written : ℕ} (hw : written ≤ Buffer.fileBuf.size) (m : Mount) :
    (readChain dev boot fuel cluster bytesLeft written m).1 ≤ Buffer.fileBuf.size := by
  induction fuel generalizing cluster bytesLeft written m with
  | zero => exact hw
  | succ fuel ih =>
    have hcopy : written + copySize boot bytesLeft written ≤ Buffer.fileBuf.size := by
      rw [copySize_eq_min]
      omega
    unfold readChain
    dsimp only
    split_ifs
    · exact hw
    · exact hcopy
    · exact hcopy
    · exact hcopy
    · exact ih _ _ hcopy _
    · exact hw

theorem vfs_storeFile_of_not_creatable (data : Mem UInt8) (size : UInt64) {path : List UInt8}
    (hpath : text (joinPath mountpoint m).pathString = path) (hc : ¬ Creatable m.vfs path) :
    (storeFile mountpoint data size m).vfs = m.vfs := by
  have hjoin := (wrote_joinPath mountpoint m).vfs
  rw [← hpath, ← hjoin] at hc
  rcases createNode_cases .file (joinPath mountpoint m).vfs (joinPath mountpoint m).pathString with
    ⟨-, he⟩ | ⟨c, -⟩
  · simp only [storeFile, createFile, he, Bool.not_false, if_true, vfs_write]
    exact hjoin
  · exact absurd c hc

namespace Round

theorem text_pathString (r : Round) (mountpoint : List UInt8) {m : Mount}
    (hname : m.buffers .name = (parsed r.offset r.before).buffers .name) :
    text (joinPath mountpoint m).pathString = joined mountpoint r.name := by
  have htext : text (window (m.buffers .name) 64) = r.name := by
    rw [hname, text_name_parsed]
    rfl
  rw [text_pathString_joinPath, joined, joined, htext, name, nameOf, text_text]

theorem size_eq_zero_iff : r.size = 0 ↔ filesize r.bytes r.offset = 0 := by
  rw [size]
  exact UInt32.toNat_inj (b := 0)

theorem size_of_empty (hk : entryKind r.bytes r.offset = .empty) : r.size = 0 := by
  unfold entryKind at hk
  split_ifs at hk
  rw [size_eq_zero_iff]
  assumption

theorem added (dev : Device) (h : Inv r.before.vfs) (ha : r.Adds boot mountpoint) :
    Added r.before.vfs (r.after dev boot mountpoint).vfs (joined mountpoint r.name)
      (r.contents dev boot) := by
  obtain ⟨hp, c⟩ := ha
  have hparsed := (wrote_parsed r.offset r.before).vfs
  have hcases := importEntry_cases dev boot mountpoint r.offset r.before
  rw [← hparsed] at h c ⊢
  rcases hp with hk | ⟨hk, hmax⟩
  · have hround : r.after dev boot mountpoint =
        importEmpty mountpoint (parsed r.offset r.before) := by
      rw [bytes] at hk
      simp only [hk] at hcases
      rw [after, hcases]
    rw [hround, contents, if_pos (size_of_empty hk)]
    exact (importEmpty_of_creatable h (r.text_pathString mountpoint rfl) c).1
  · have hsize : r.size ≠ 0 := fun h0 =>
      filesize_ne_zero_of_file hk (size_eq_zero_iff.mp h0)
    have hround : r.after dev boot mountpoint = importFile dev boot mountpoint r.start
        (filesize r.bytes r.offset) (parsed r.offset r.before) := by
      rw [bytes] at hk
      simp only [hk] at hcases
      simp only [after, hcases, start, bytes]
    have hname := (frame_readChain dev boot chainFuel r.start r.size 0 (parsed r.offset r.before)).2
    have hadd := (importFile_of_creatable dev hmax r.start (filesize r.bytes r.offset) h
      (r.text_pathString mountpoint hname) c).1
    have hle : (r.chain dev boot).1 ≤ 4096 :=
      readChain_fst_le dev boot chainFuel r.start r.size (Nat.zero_le _) _
    have hword : (UInt64.ofNat (r.chain dev boot).1).toNat = (r.chain dev boot).1 := by
      rw [UInt64.toNat_ofNat']
      exact Nat.mod_eq_of_lt (by omega)
    have hcontents : (window ((r.chain dev boot).2.buffers .fileBuf)
        (UInt64.ofNat (r.chain dev boot).1).toNat).take 4096 = r.contents dev boot := by
      rw [hword, contents, if_neg hsize]
      exact List.take_of_length_le (by rw [length_window]; exact hle)
    rw [hround, ← hcontents]
    exact hadd

theorem vfs_after (dev : Device) (hn : ¬ r.Adds boot mountpoint) :
    (r.after dev boot mountpoint).vfs = r.before.vfs := by
  have hparsed := (wrote_parsed r.offset r.before).vfs
  have hcases := importEntry_cases dev boot mountpoint r.offset r.before
  cases hk : entryKind (r.before.buffers .clusterBuf) r.offset <;> simp only [hk] at hcases
  case last =>
    rw [after, hcases]
    rfl
  case skipped =>
    obtain ⟨is, -, he⟩ := hcases
    rw [after, he]
    rfl
  case empty =>
    have hc : ¬ Creatable (parsed r.offset r.before).vfs (joined mountpoint r.name) := by
      rw [hparsed]
      exact fun c => hn ⟨.inl hk, c⟩
    rw [after, hcases, vfs_importEmpty_of_not_creatable (r.text_pathString mountpoint rfl) hc,
      hparsed]
  case file =>
    obtain ⟨hvfs, hname⟩ :=
      frame_readChain dev boot chainFuel r.start r.size 0 (parsed r.offset r.before)
    rw [start, size, bytes] at hvfs hname
    rw [after, hcases, importFile_eq]
    split
    · exact hparsed
    · rename_i hmax
      rw [vfs_storeFile_of_not_creatable _ _ (r.text_pathString mountpoint hname), hvfs, hparsed]
      rw [hvfs, hparsed]
      exact fun c => hn ⟨.inr ⟨hk, Nat.le_of_not_lt hmax⟩, c⟩

theorem creates_iff (dev : Device) (h : Inv r.before.vfs) :
    r.Creates dev boot mountpoint p ↔ p = joined mountpoint r.name ∧ r.Adds boot mountpoint := by
  constructor
  · rintro ⟨habsent, hsome⟩
    by_cases ha : r.Adds boot mountpoint
    · refine ⟨?_, ha⟩
      by_contra hne
      rw [(added dev h ha).node p hne, habsent] at hsome
      cases hsome
    · rw [vfs_after dev ha, habsent] at hsome
      cases hsome
  · rintro ⟨rfl, ha⟩
    obtain ⟨node, hn, -⟩ := (added dev h ha).file
    exact ⟨ha.2.absent, Option.isSome_iff_exists.mpr ⟨node, hn⟩⟩

end Round

/-! ## All rounds -/

theorem roundsFrom_cons (dev : Device) (boot : Boot) (mountpoint : List UInt8) (offset : ℕ)
    (offsets : List ℕ) (m : Mount) :
    roundsFrom dev boot mountpoint (offset :: offsets) m =
      ⟨offset, m⟩ :: roundsFrom dev boot mountpoint
        (if (importEntry dev boot mountpoint offset m).1 then offsets else [])
        (importEntry dev boot mountpoint offset m).2 := by
  rw [roundsFrom]
  generalize importEntry dev boot mountpoint offset m = q
  obtain ⟨goOn, m₁⟩ := q
  cases goOn <;> rfl

theorem mem_roundsFrom_cons {offset : ℕ} {offsets : List ℕ} :
    r ∈ roundsFrom dev boot mountpoint (offset :: offsets) m ↔ r = ⟨offset, m⟩ ∨
      (importEntry dev boot mountpoint offset m).1 = true ∧
        r ∈ roundsFrom dev boot mountpoint offsets
          (importEntry dev boot mountpoint offset m).2 := by
  rw [roundsFrom_cons, List.mem_cons]
  split
  · rename_i hgo
    simp [hgo]
  · rename_i hgo
    simp [hgo, roundsFrom]

theorem importEntries_cons (dev : Device) (boot : Boot) (mountpoint : List UInt8) (offset : ℕ)
    (offsets : List ℕ) (m : Mount) :
    importEntries dev boot mountpoint (offset :: offsets) m =
      importEntries dev boot mountpoint
        (if (importEntry dev boot mountpoint offset m).1 then offsets else [])
        (importEntry dev boot mountpoint offset m).2 := by
  rw [importEntries]
  generalize importEntry dev boot mountpoint offset m = q
  obtain ⟨goOn, m₁⟩ := q
  cases goOn <;> rfl

theorem mounting_of_mem_roundsFrom {t₀ : Table} {offsets : List ℕ}
    (h : Mounting (text mountpoint) t₀ m.vfs)
    (hr : r ∈ roundsFrom dev boot mountpoint offsets m) :
    Mounting (text mountpoint) t₀ r.before.vfs ∧ ∃ rest,
      importEntries dev boot mountpoint offsets m =
        importEntries dev boot mountpoint rest (r.after dev boot mountpoint) := by
  induction offsets generalizing m with
  | nil => cases hr
  | cons offset offsets ih =>
    rw [importEntries_cons]
    rcases mem_roundsFrom_cons.mp hr with rfl | ⟨hgo, hr⟩
    · exact ⟨h, _, rfl⟩
    · rw [if_pos hgo]
      exact ih (h.importEntry dev boot offset) hr

theorem offset_mem_of_mem_roundsFrom {offsets : List ℕ}
    (hr : r ∈ roundsFrom dev boot mountpoint offsets m) : r.offset ∈ offsets := by
  induction offsets generalizing m with
  | nil => cases hr
  | cons offset offsets ih =>
    rcases mem_roundsFrom_cons.mp hr with rfl | ⟨-, hr⟩
    · exact List.mem_cons_self
    · exact List.mem_cons_of_mem _ (ih hr)

theorem node_of_creates {t₀ : Table} {offsets : List ℕ}
    (h : Mounting (text mountpoint) t₀ m.vfs)
    (hr : r ∈ roundsFrom dev boot mountpoint offsets m)
    (hp : r.Creates dev boot mountpoint p) :
    p = joined mountpoint r.name ∧ ∃ node,
      (importEntries dev boot mountpoint offsets m).vfs.node p = some node ∧
      node.type = .file ∧ node.contents = r.contents dev boot := by
  obtain ⟨hbefore, rest, he⟩ := mounting_of_mem_roundsFrom h hr
  obtain ⟨rfl, ha⟩ := (Round.creates_iff dev hbefore.inv).mp hp
  have hadd := Round.added dev hbefore.inv ha
  have hround : Mounting (text mountpoint) (r.after dev boot mountpoint).vfs
      (r.after dev boot mountpoint).vfs :=
    ⟨hadd.inv, (hbefore.importEntry dev boot r.offset).mounted, .refl ..⟩
  have hfinal := hround.importEntries dev boot rest
  obtain ⟨node, hn, hfile, hcontents⟩ := hadd.file
  rw [he]
  exact ⟨rfl, node, hfinal.confined.node hadd.inv hfinal.inv hn, hfile, hcontents⟩

theorem eq_of_creates {t₀ : Table} {offsets : List ℕ} {r' : Round}
    (h : Mounting (text mountpoint) t₀ m.vfs)
    (hr : r ∈ roundsFrom dev boot mountpoint offsets m)
    (hr' : r' ∈ roundsFrom dev boot mountpoint offsets m)
    (hp : r.Creates dev boot mountpoint p) (hp' : r'.Creates dev boot mountpoint p) : r = r' := by
  induction offsets generalizing m with
  | nil => cases hr
  | cons offset offsets ih =>
    have hentry := h.importEntry dev boot offset
    -- what the first round creates is there before every later one
    have hlater {q : Round}
        (hfirst : ((importEntry dev boot mountpoint offset m).2.vfs.node p).isSome)
        (hq : q ∈ roundsFrom dev boot mountpoint offsets
          (importEntry dev boot mountpoint offset m).2) :
        ¬ q.Creates dev boot mountpoint p := by
      rintro ⟨habsent, -⟩
      obtain ⟨hbefore, -⟩ := mounting_of_mem_roundsFrom
        (⟨hentry.inv, hentry.mounted, .refl ..⟩ : Mounting _ _ _) hq
      rw [hbefore.confined.absent hentry.inv hbefore.inv habsent] at hfirst
      cases hfirst
    rcases mem_roundsFrom_cons.mp hr with rfl | ⟨-, hr⟩
    · rcases mem_roundsFrom_cons.mp hr' with rfl | ⟨-, hr'⟩
      · rfl
      · exact absurd hp' (hlater hp.2 hr')
    · rcases mem_roundsFrom_cons.mp hr' with rfl | ⟨-, hr'⟩
      · exact absurd hp (hlater hp'.2 hr)
      · exact ih hentry hr hr'

theorem newFiles_importEntries (dev : Device) (boot : Boot) (offsets : List ℕ)
    (h : Inv m.vfs) (hM : (m.vfs.node (text mountpoint)).isSome) :
    newFiles m.vfs (importEntries dev boot mountpoint offsets m).vfs =
      {p | ∃ r ∈ roundsFrom dev boot mountpoint offsets m, r.Creates dev boot mountpoint p} := by
  have hstart : Mounting (text mountpoint) m.vfs m.vfs := ⟨h, hM, .refl ..⟩
  ext p
  constructor
  · rintro ⟨habsent, node, hn, -⟩
    clear hM
    induction offsets generalizing m with
    | nil =>
      have hn' : m.vfs.node p = some node := hn
      rw [habsent] at hn'
      cases hn'
    | cons offset offsets ih =>
      have hentry := hstart.importEntry dev boot offset
      rw [importEntries_cons] at hn
      cases hp : (importEntry dev boot mountpoint offset m).2.vfs.node p with
      | some _ =>
        exact ⟨⟨offset, m⟩, mem_roundsFrom_cons.mpr (.inl rfl), habsent,
          Option.isSome_iff_exists.mpr ⟨_, hp⟩⟩
      | none =>
        by_cases hgo : (importEntry dev boot mountpoint offset m).1 = true
        · rw [if_pos hgo] at hn
          obtain ⟨r, hr, hcreates⟩ :=
            ih hentry.inv ⟨hentry.inv, hentry.mounted, .refl ..⟩ hp hn
          exact ⟨r, mem_roundsFrom_cons.mpr (.inr ⟨hgo, hr⟩), hcreates⟩
        · rw [if_neg hgo, importEntries, hp] at hn
          cases hn
  · rintro ⟨r, hr, hp⟩
    obtain ⟨-, node, hn, hfile, -⟩ := node_of_creates hstart hr hp
    obtain ⟨hbefore, -⟩ := mounting_of_mem_roundsFrom hstart hr
    exact ⟨hbefore.confined.absent h hbefore.inv hp.1, node, hn, hfile⟩

/-! ## The mount -/

/-- The boot sector can be read, its sizes are accepted and the mountpoint is there, so that the
mount comes to the read of the root directory. -/
structure Admits (dev : Device) (mountpoint : List UInt8) (m : Mount) : Prop where
  found : dev.found = true
  booted : (dev.read m.reads.length ⟨0, .sector, 1⟩ (m.buffers .sector)).1 = true
  sectorSize : (diskBoot dev m).bytesPerSector ≠ 0
  mountable : Mountable m.vfs mountpoint
  clusterSize_le : (diskBoot dev m).clusterSize ≤ 8192

theorem admits_of_mounted (hok : (fat32Mount dev mountpoint m).1 = true) :
    Admits dev mountpoint m := by
  have hrun := (mountRun_iff dev mountpoint m _).mpr rfl
  generalize fat32Mount dev mountpoint m = q at hok hrun
  cases hrun with
  | notFound => cases hok
  | noBootSector => cases hok
  | booted hfound hb hr =>
    cases hr with
    | mounted h0 he hs =>
      exact ⟨hfound, hb, h0, (ensureMountpoint_fst mountpoint (bootRead dev m)).mp he,
        Nat.le_of_not_lt hs⟩
    | _ => cases hok

/-- A mount that is admitted reads the root directory, and then it fails or runs the loop over
the directory. -/
theorem fat32Mount_of_admits (ha : Admits dev mountpoint m) :
    (∃ s, fat32Mount dev mountpoint m = (false, (firstState dev mountpoint m).write s)) ∨
    ∃ s, fat32Mount dev mountpoint m =
      (true, (importEntries dev (diskBoot dev m) mountpoint
        (entryOffsets (diskBoot dev m).clusterSize) (firstState dev mountpoint m)).write s) := by
  have hmount : mountBoot dev (diskBoot dev m) mountpoint (bootRead dev m) = _ :=
    mountBoot_of_accepted ha.sectorSize ha.mountable ha.clusterSize_le
  have he : fat32Mount dev mountpoint m =
      mountBoot dev (diskBoot dev m) mountpoint (bootRead dev m) :=
    fat32Mount_eq_mountBoot mountpoint ha.found ha.booted
  rw [he, hmount]
  split
  · exact .inr ⟨_, rfl⟩
  · exact .inl ⟨_, rfl⟩

theorem vfs_fat32Mount_of_failed (hfail : (fat32Mount dev mountpoint m).1 = false) :
    (fat32Mount dev mountpoint m).2.vfs = m.vfs ∨
      (fat32Mount dev mountpoint m).2.vfs =
        (ensureMountpoint mountpoint (bootRead dev m)).2.vfs := by
  have hrun := (mountRun_iff dev mountpoint m _).mpr rfl
  generalize fat32Mount dev mountpoint m = q at hfail hrun ⊢
  cases hrun with
  | notFound => exact .inl rfl
  | noBootSector => exact .inl rfl
  | booted _ _ hr =>
    cases hr with
    | noSectorSize => exact .inl rfl
    | noMountpoint => exact .inr (vfs_write _ _)
    | largeCluster => exact .inr (vfs_write _ _)
    | noRoot => exact .inr ((vfs_write _ _).trans (vfs_blockRead _ _ _ _ _))
    | mounted => cases hfail

theorem node_ensureMountpoint (h : Inv m.vfs) {node : Node}
    (hn : (ensureMountpoint mountpoint m).2.vfs.node p = some node) :
    m.vfs.node p = some node ∨ node.type = .dir := by
  unfold ensureMountpoint exists' at hn
  cases hf : findNode m.vfs mountpoint with
  | some i =>
    rw [hf] at hn
    exact .inl hn
  | none =>
    simp only [hf, Option.isSome_none, Bool.not_false, if_true] at hn
    rcases createNode_cases .dir m.vfs mountpoint with ⟨-, he⟩ | ⟨c, i, hi, he⟩
    · rw [createDir, he] at hn
      exact .inl hn
    · rw [createDir, he, node_store h.distinct hi c] at hn
      split at hn
      · right
        rw [← Option.some.inj hn]
        rfl
      · exact .inl hn

theorem newFiles_ensureMountpoint {t' : Table} (h : Inv m.vfs) (h' : Inv t')
    (hc : Confined (text mountpoint) (ensureMountpoint mountpoint m).2.vfs t') :
    newFiles (ensureMountpoint mountpoint m).2.vfs t' = newFiles m.vfs t' := by
  have hens : Inv (ensureMountpoint mountpoint m).2.vfs ∧
      Confined (text mountpoint) m.vfs (ensureMountpoint mountpoint m).2.vfs := by
    rcases ensureMountpoint_spec h mountpoint with ⟨-, hv⟩ | ⟨-, hm⟩
    · rw [hv]
      exact ⟨h, .refl ..⟩
    · exact ⟨hm.inv, hm.confined⟩
  ext p
  constructor
  · rintro ⟨habsent, hfile⟩
    exact ⟨hens.2.absent h hens.1 habsent, hfile⟩
  · rintro ⟨habsent, node, hn, hfile⟩
    refine ⟨?_, node, hn, hfile⟩
    by_contra hsome
    obtain ⟨node₁, hn₁⟩ := Option.ne_none_iff_exists'.mp hsome
    obtain rfl := Option.some.inj ((hc.node hens.1 h' hn₁).symm.trans hn)
    rcases node_ensureMountpoint h hn₁ with hold | hdir
    · rw [habsent] at hold
      cases hold
    · rw [hfile] at hdir
      cases hdir

theorem newFiles_self (t : Table) : newFiles t t = ∅ := by
  ext p
  constructor
  · rintro ⟨habsent, node, hn, -⟩
    rw [habsent] at hn
    cases hn
  · rintro ⟨⟩

theorem mounting_firstState (h : Inv m.vfs) (ha : Admits dev mountpoint m) :
    Mounting (text mountpoint) m.vfs (firstState dev mountpoint m).vfs := by
  have hv : (firstState dev mountpoint m).vfs =
      (ensureMountpoint mountpoint (bootRead dev m)).2.vfs := vfs_blockRead ..
  have hok := (ensureMountpoint_fst mountpoint (bootRead dev m)).mpr ha.mountable
  rcases ensureMountpoint_spec (m := bootRead dev m) h mountpoint with ⟨hno, -⟩ | ⟨-, hm⟩
  · rw [hok] at hno
    cases hno
  · rw [hv]
    exact hm

theorem vfs_fat32Mount_of_mounted (hok : (fat32Mount dev mountpoint m).1 = true) :
    (fat32Mount dev mountpoint m).2.vfs = (importEntries dev (diskBoot dev m) mountpoint
      (entryOffsets (diskBoot dev m).clusterSize) (firstState dev mountpoint m)).vfs := by
  rcases fat32Mount_of_admits (admits_of_mounted hok) with ⟨s, he⟩ | ⟨s, he⟩
  · rw [he] at hok
    cases hok
  · rw [he, vfs_write]

/-- The new files of a mount are those that its rounds create. -/
theorem newFiles_fat32Mount (dev : Device) (mountpoint : List UInt8) (h : Inv m.vfs) :
    newFiles m.vfs (fat32Mount dev mountpoint m).2.vfs =
      {p | ∃ r ∈ rounds dev mountpoint m, r.Creates dev (diskBoot dev m) mountpoint p} := by
  have hens {t' : Table} (h' : Inv t')
      (hc : Confined (text mountpoint) (ensureMountpoint mountpoint (bootRead dev m)).2.vfs t') :
      newFiles (ensureMountpoint mountpoint (bootRead dev m)).2.vfs t' = newFiles m.vfs t' :=
    newFiles_ensureMountpoint (m := bootRead dev m) h h' hc
  rw [rounds]
  cases hok : (fat32Mount dev mountpoint m).1 with
  | true =>
    have hfirst := mounting_firstState h (admits_of_mounted hok)
    have hrest : Mounting (text mountpoint) (firstState dev mountpoint m).vfs
        (firstState dev mountpoint m).vfs := ⟨hfirst.inv, hfirst.mounted, .refl ..⟩
    have hfinal := hrest.importEntries dev (diskBoot dev m)
      (entryOffsets (diskBoot dev m).clusterSize)
    have hvfs : (firstState dev mountpoint m).vfs =
        (ensureMountpoint mountpoint (bootRead dev m)).2.vfs := vfs_blockRead ..
    rw [← hvfs] at hens
    rw [if_pos rfl, vfs_fat32Mount_of_mounted hok, ← hens hfinal.inv hfinal.confined]
    exact newFiles_importEntries dev _ _ hfirst.inv hfirst.mounted
  | false =>
    have hempty : newFiles m.vfs (fat32Mount dev mountpoint m).2.vfs = ∅ := by
      rcases vfs_fat32Mount_of_failed hok with hv | hv
      · rw [hv, newFiles_self]
      · have hinv := (inv_confined_fat32Mount dev mountpoint h).1
        rw [hv] at hinv ⊢
        rw [← hens hinv (.refl ..), newFiles_self]
    rw [hempty]
    ext p
    constructor
    · rintro ⟨⟩
    · rintro ⟨r, hr, -⟩
      cases hr

theorem mem_rounds (hr : r ∈ rounds dev mountpoint m) : (fat32Mount dev mountpoint m).1 = true ∧
    r ∈ roundsFrom dev (diskBoot dev m) mountpoint (entryOffsets (diskBoot dev m).clusterSize)
      (firstState dev mountpoint m) := by
  rw [rounds] at hr
  split at hr
  · rename_i hok
    exact ⟨hok, hr⟩
  · cases hr

theorem offset_add_le (hr : r ∈ rounds dev mountpoint m) :
    r.offset + 32 ≤ (diskBoot dev m).clusterSize :=
  add_le_of_mem_entryOffsets (offset_mem_of_mem_roundsFrom (mem_rounds hr).2)

theorem mounting_before (h : Inv m.vfs) (hr : r ∈ rounds dev mountpoint m) :
    Mounting (text mountpoint) m.vfs r.before.vfs := by
  obtain ⟨hok, hr⟩ := mem_rounds hr
  exact (mounting_of_mem_roundsFrom (mounting_firstState h (admits_of_mounted hok)) hr).1

theorem node_fat32Mount_of_adds (h : Inv m.vfs) (hr : r ∈ rounds dev mountpoint m)
    (ha : r.Adds (diskBoot dev m) mountpoint) :
    ∃ node, (fat32Mount dev mountpoint m).2.vfs.node (joined mountpoint r.name) = some node ∧
      node.type = .file ∧ node.contents = r.contents dev (diskBoot dev m) := by
  have hp := (Round.creates_iff dev (mounting_before h hr).inv).mpr ⟨rfl, ha⟩
  obtain ⟨hok, hr⟩ := mem_rounds hr
  rw [vfs_fat32Mount_of_mounted hok]
  exact (node_of_creates (mounting_firstState h (admits_of_mounted hok)) hr hp).2

theorem forall_newFiles_iff (dev : Device) (mountpoint : List UInt8) (h : Inv m.vfs)
    (P : Round → List UInt8 → Prop) :
    (∀ p ∈ newFiles m.vfs (fat32Mount dev mountpoint m).2.vfs, ∃ r ∈ rounds dev mountpoint m,
      r.Creates dev (diskBoot dev m) mountpoint p ∧ P r p) ↔
    ∀ r ∈ rounds dev mountpoint m, r.Adds (diskBoot dev m) mountpoint →
      P r (joined mountpoint r.name) := by
  rw [newFiles_fat32Mount dev mountpoint h]
  constructor
  · intro hall r hr ha
    have hp := (Round.creates_iff dev (mounting_before h hr).inv).mpr ⟨rfl, ha⟩
    obtain ⟨r', hr', hp', hP⟩ := hall _ ⟨r, hr, hp⟩
    obtain ⟨hok, hmem⟩ := mem_rounds hr
    obtain rfl := eq_of_creates (mounting_firstState h (admits_of_mounted hok)) hmem
      (mem_rounds hr').2 hp hp'
    exact hP
  · rintro hall p ⟨r, hr, hp⟩
    obtain ⟨rfl, ha⟩ := (Round.creates_iff dev (mounting_before h hr).inv).mp hp
    exact ⟨r, hr, hp, hall r hr ha⟩

end Wnu.Fat32
