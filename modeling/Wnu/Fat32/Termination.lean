import Wnu.Fat32.Failure
import Wnu.Fat32.Paths
import Wnu.Fat32.Chain
import Wnu.Runs.While
import Mathlib.Algebra.Order.Floor.Div

/-! # Mounts end

The loop over the clusters of a file has no bound of its own: it follows the table
wherever the table leads. Every round that goes on copies bytes, so the bytes that
are still missing from `file_buf` run out. The runs below are those of the loop as it
stands, without the bound that `readChain` is given, and a round that divides by zero
has no outcome.
-/

namespace Wnu.Fat32

open Text Memory Runs Vfs

variable {dev : Device} {boot : Boot} {mountpoint : List UInt8} {m m' : Mount}

structure ChainState where
  cluster : UInt32
  bytesLeft : ℕ
  written : ℕ
  mount : Mount

/-- A round of the loop over the clusters of a file: it goes on, it leaves the loop with
`written`, or it divides by zero. -/
def chainRound (dev : Device) (boot : Boot) (s : ChainState) : Option (ChainState ⊕ (ℕ × Mount)) :=
  if s.bytesLeft > 0 ∧ s.written < Buffer.fileBuf.size then
    let (ok, m) := blockRead dev (boot.sectorOfCluster s.cluster) .clusterBuf
      boot.sectorsPerCluster.toNat s.mount
    if !ok then some (.inr (s.written, m.write "fat32: failed to read file cluster\n"))
    else
      let copy := copySize boot s.bytesLeft s.written
      let m := copyCluster s.written copy m
      let written := s.written + copy
      let bytesLeft := s.bytesLeft - copy
      if boot.bytesPerSector = 0 then none
      else
        let (ok, m) := blockRead dev (boot.fatSector s.cluster) .fatSectorBuf 1 m
        if !ok then some (.inr (written, m.write "fat32: failed to read FAT sector\n"))
        else
          let (entry, m) := fatEntry (boot.fatSectorOffset s.cluster).toNat m
          let entry := entry &&& 0x0fffffff
          if entry ≥ 0x0ffffff8 then some (.inr (written, m))
          else if entry = 0 then some (.inr (written, m))
          else some (.inl ⟨entry, bytesLeft, written, m⟩)
  else some (.inr (s.written, s.mount))

inductive EntriesRun (dev : Device) (boot : Boot) (mountpoint : List UInt8) :
    List ℕ → Mount → Mount → Prop
  | done (m : Mount) : EntriesRun dev boot mountpoint [] m m
  | leave {offset : ℕ} {offsets : List ℕ} {m m' : Mount}
      (h : importEntry dev boot mountpoint offset m = (false, m')) :
      EntriesRun dev boot mountpoint (offset :: offsets) m m'
  | plain {offset : ℕ} {offsets : List ℕ} {m m' m'' : Mount}
      (hk : entryKind (m.buffers .clusterBuf) offset ≠ .file)
      (h : importEntry dev boot mountpoint offset m = (true, m'))
      (hr : EntriesRun dev boot mountpoint offsets m' m'') :
      EntriesRun dev boot mountpoint (offset :: offsets) m m''
  | unsupported {offset : ℕ} {offsets : List ℕ} {m m'' : Mount}
      (hk : entryKind (m.buffers .clusterBuf) offset = .file)
      (hs : boot.bytesPerSector.toNat > Buffer.fatSectorBuf.size)
      (hr : EntriesRun dev boot mountpoint offsets
        ((parsed offset m).write "fat32: unsupported sector size for FAT read\n") m'') :
      EntriesRun dev boot mountpoint (offset :: offsets) m m''
  | file {offset : ℕ} {offsets : List ℕ} {m m' m'' : Mount} {written : ℕ}
      (hk : entryKind (m.buffers .clusterBuf) offset = .file)
      (hs : ¬ boot.bytesPerSector.toNat > Buffer.fatSectorBuf.size)
      (hc : Exits (chainRound dev boot) ⟨startCluster (m.buffers .clusterBuf) offset,
        (filesize (m.buffers .clusterBuf) offset).toNat, 0, parsed offset m⟩ (written, m'))
      (hr : EntriesRun dev boot mountpoint offsets
        (storeFile mountpoint (m'.buffers .fileBuf) (UInt64.ofNat written) m') m'') :
      EntriesRun dev boot mountpoint (offset :: offsets) m m''

inductive BootRun (dev : Device) (boot : Boot) (mountpoint : List UInt8) (m : Mount) :
    Bool × Mount → Prop
  | noSectorSize (h0 : boot.bytesPerSector = 0) :
      BootRun dev boot mountpoint m (false, m.write "fat32: invalid bytes per sector\n")
  | noMountpoint (h0 : boot.bytesPerSector ≠ 0) (he : (ensureMountpoint mountpoint m).1 = false) :
      BootRun dev boot mountpoint m
        (false, (ensureMountpoint mountpoint m).2.write "fat32: failed to create mountpoint\n")
  | largeCluster (h0 : boot.bytesPerSector ≠ 0) (he : (ensureMountpoint mountpoint m).1 = true)
      (hs : boot.clusterSize > Buffer.clusterBuf.size) :
      BootRun dev boot mountpoint m
        (false, (ensureMountpoint mountpoint m).2.write "fat32: cluster too large\n")
  | noRoot (h0 : boot.bytesPerSector ≠ 0) (he : (ensureMountpoint mountpoint m).1 = true)
      (hs : ¬ boot.clusterSize > Buffer.clusterBuf.size)
      (hr : (blockRead dev (boot.sectorOfCluster boot.rootCluster) .clusterBuf
        boot.sectorsPerCluster.toNat (ensureMountpoint mountpoint m).2).1 = false) :
      BootRun dev boot mountpoint m
        (false, (rootRead dev boot mountpoint m).write "fat32: failed to read root cluster\n")
  | mounted (h0 : boot.bytesPerSector ≠ 0) (he : (ensureMountpoint mountpoint m).1 = true)
      (hs : ¬ boot.clusterSize > Buffer.clusterBuf.size)
      (hr : (blockRead dev (boot.sectorOfCluster boot.rootCluster) .clusterBuf
        boot.sectorsPerCluster.toNat (ensureMountpoint mountpoint m).2).1 = true) {m' : Mount}
      (hm : EntriesRun dev boot mountpoint (entryOffsets boot.clusterSize)
        (rootRead dev boot mountpoint m) m') :
      BootRun dev boot mountpoint m (true, m'.write "fat32: mounted\n")

inductive MountRun (dev : Device) (mountpoint : List UInt8) (m : Mount) : Bool × Mount → Prop
  | notFound (h : dev.found = false) :
      MountRun dev mountpoint m (false, m.write "fat32: device not found\n")
  | noBootSector (h : dev.found = true) (hb : (blockRead dev 0 .sector 1 m).1 = false) :
      MountRun dev mountpoint m
        (false, (blockRead dev 0 .sector 1 m).2.write "fat32: failed to read boot sector\n")
  | booted (h : dev.found = true) (hb : (blockRead dev 0 .sector 1 m).1 = true)
      {r : Bool × Mount} (hr : BootRun dev (diskBoot dev m) mountpoint (bootRead dev m) r) :
      MountRun dev mountpoint m r

/-! ## The loop over the clusters -/

theorem bytesPerSector_ne_zero (h : 0 < boot.clusterSize) : boot.bytesPerSector ≠ 0 := by
  rintro h0
  rw [Boot.clusterSize, h0] at h
  simp at h

/-- The loop ends without a division by zero in what `readChain` returns, when that has a round
for each byte that is missing from `file_buf`. -/
theorem exits_readChain (dev : Device) (h0 : 0 < boot.clusterSize) {fuel written : ℕ}
    (hf : Buffer.fileBuf.size ≤ written + fuel) (cluster : UInt32) (bytesLeft : ℕ) (m : Mount) :
    Exits (chainRound dev boot) ⟨cluster, bytesLeft, written, m⟩
      (readChain dev boot fuel cluster bytesLeft written m) := by
  have hbps := bytesPerSector_ne_zero h0
  induction fuel generalizing written cluster bytesLeft m with
  | zero =>
    have hdone : ¬ (bytesLeft > 0 ∧ written < Buffer.fileBuf.size) := by omega
    exact .leave (by rw [chainRound, if_neg hdone]; rfl)
  | succ fuel ih =>
    by_cases h : bytesLeft > 0 ∧ written < Buffer.fileBuf.size
    swap
    · rw [readChain, if_neg h]
      exact .leave (by rw [chainRound, if_neg h])
    have hcopy := copySize_pos h0 h
    have hnext (entry : UInt32) (left : ℕ) (m : Mount) :
        Exits (chainRound dev boot) ⟨entry, left, written + copySize boot bytesLeft written, m⟩
          (readChain dev boot fuel entry left (written + copySize boot bytesLeft written) m) :=
      ih (by omega) entry left m
    rw [readChain, if_pos h]
    simp only
    split
    · next hread => exact .leave (by simp only [chainRound, if_pos h, hread, if_true])
    next hread =>
    split
    · next hfat =>
      exact .leave (by
        simp only [chainRound, if_pos h, hread, hbps, hfat, if_true, Bool.false_eq_true, if_false])
    next hfat =>
    split
    · next hend =>
      exact .leave (by
        simp only [chainRound, if_pos h, hread, hbps, hfat, hend, if_true, Bool.false_eq_true,
          if_false])
    next hend =>
    split
    · next hfree =>
      exact .leave (by
        simp only [chainRound, if_pos h, hread, hbps, hfat, hfree, if_true, Bool.false_eq_true,
          if_false, ite_self])
    · next hfree =>
      refine .again ?_ (hnext _ _ _)
      simp only [chainRound, if_pos h, hread, hbps, hfat, hend, hfree, Bool.false_eq_true, if_false]

theorem exits_iff (dev : Device) (h0 : 0 < boot.clusterSize) (cluster : UInt32) (bytesLeft : ℕ)
    (m : Mount) (r : ℕ × Mount) :
    Exits (chainRound dev boot) ⟨cluster, bytesLeft, 0, m⟩ r ↔
      r = readChain dev boot chainFuel cluster bytesLeft 0 m := by
  have h : Exits (chainRound dev boot) ⟨cluster, bytesLeft, 0, m⟩
      (readChain dev boot chainFuel cluster bytesLeft 0 m) :=
    exits_readChain dev h0 (Nat.le_refl _) cluster bytesLeft m
  constructor
  · intro hr
    exact hr.unique h
  · rintro rfl
    exact h

/-! ## Reads -/

def readBound (boot : Boot) (s : ChainState) : ℕ :=
  s.mount.reads.length +
    2 * (min s.bytesLeft (Buffer.fileBuf.size - s.written) ⌈/⌉ boot.clusterSize)

theorem reads_copyCluster (written copy : ℕ) (m : Mount) :
    (copyCluster written copy m).reads = m.reads :=
  forLoop_invariant (P := fun _ (m' : Mount) => m'.reads = m.reads) rfl fun _ _ _ h => h

@[simp] theorem length_reads_blockRead (dev : Device) (lba : UInt32) (b : Buffer) (count : ℕ)
    (m : Mount) : (blockRead dev lba b count m).2.reads.length = m.reads.length + 1 := rfl

@[simp] theorem reads_write (m : Mount) (s : String) : (m.write s).reads = m.reads := rfl

@[simp] theorem reads_fatEntry (offset : ℕ) (m : Mount) :
    (fatEntry offset m).2.reads = m.reads := rfl

theorem ceilDiv_sub {c n : ℕ} (hc : 0 < c) (hn : 0 < n) :
    (n - min c n) ⌈/⌉ c + 1 ≤ n ⌈/⌉ c := by
  simp only [Nat.ceilDiv_eq_add_pred_div]
  rcases Nat.le_total c n with h | h
  · rw [Nat.min_eq_left h, ← Nat.add_div_right _ hc]
    exact Nat.div_le_div_right (by omega)
  · rw [Nat.min_eq_right h, Nat.sub_self, Nat.zero_add, Nat.div_eq_of_lt (by omega), Nat.zero_add]
    exact Nat.div_pos (by omega) hc

/-- No round of the loop raises the bound. -/
theorem readBound_round (h0 : 0 < boot.clusterSize) (s : ChainState) :
    ∀ x ∈ chainRound dev boot s,
      Sum.elim (readBound boot) (fun r => r.2.reads.length) x ≤ readBound boot s := by
  unfold chainRound
  by_cases h : s.bytesLeft > 0 ∧ s.written < Buffer.fileBuf.size
  swap
  · rw [if_neg h]
    rintro x ⟨⟩
    exact Nat.le_add_right ..
  have hceil := ceilDiv_sub h0 (n := min s.bytesLeft (Buffer.fileBuf.size - s.written)) (by omega)
  have hnext : min (s.bytesLeft - copySize boot s.bytesLeft s.written)
      (Buffer.fileBuf.size - (s.written + copySize boot s.bytesLeft s.written)) =
      min s.bytesLeft (Buffer.fileBuf.size - s.written) - min boot.clusterSize
        (min s.bytesLeft (Buffer.fileBuf.size - s.written)) := by
    rw [copySize_eq_min]
    omega
  rw [if_pos h]
  simp only
  intro x hx
  split_ifs at hx <;> cases hx <;>
    simp only [Sum.elim_inl, Sum.elim_inr, readBound, length_reads_blockRead, reads_copyCluster,
      reads_write, reads_fatEntry, hnext] <;> omega

theorem reads_readChain (dev : Device) (h0 : 0 < boot.clusterSize) (cluster : UInt32)
    (bytesLeft : ℕ) (m : Mount) :
    (readChain dev boot chainFuel cluster bytesLeft 0 m).2.reads.length ≤
      m.reads.length + 2 * (4096 ⌈/⌉ boot.clusterSize) := by
  have hexits := (exits_iff dev h0 cluster bytesLeft m _).mpr rfl
  have hle := hexits.le_potential (readBound boot) (fun r => r.2.reads.length)
    (readBound_round h0)
  have hmono : min bytesLeft Buffer.fileBuf.size ⌈/⌉ boot.clusterSize ≤
      4096 ⌈/⌉ boot.clusterSize := by
    simp only [Nat.ceilDiv_eq_add_pred_div]
    exact Nat.div_le_div_right (by simp only [Buffer.size]; omega)
  simp only [readBound, Nat.sub_zero] at hle
  omega

@[simp] theorem reads_storeFile (mountpoint : List UInt8) (data : Mem UInt8) (size : UInt64)
    (m : Mount) : (storeFile mountpoint data size m).reads = m.reads := by
  have hjoin := (wrote_joinPath mountpoint m).reads
  unfold storeFile
  dsimp only
  split
  · exact hjoin
  · split <;> exact hjoin

theorem reads_importEntry (dev : Device) (h0 : 0 < boot.clusterSize) (mountpoint : List UInt8)
    (offset : ℕ) (m : Mount) :
    (importEntry dev boot mountpoint offset m).2.reads.length ≤
      m.reads.length + 2 * (4096 ⌈/⌉ boot.clusterSize) := by
  have hparsed := (wrote_parsed offset m).reads
  have hcases := importEntry_cases dev boot mountpoint offset m
  cases hk : entryKind (m.buffers .clusterBuf) offset <;> simp only [hk] at hcases
  case last =>
    rw [hcases]
    exact Nat.le_add_right ..
  case skipped =>
    obtain ⟨is, -, he⟩ := hcases
    rw [he]
    exact Nat.le_add_right ..
  case empty =>
    have hjoin := (wrote_joinPath mountpoint (parsed offset m)).reads
    rw [hcases, importEmpty]
    simp only [hjoin, hparsed]
    exact Nat.le_add_right ..
  case file =>
    rw [hcases, importFile_eq]
    split
    · simp only [reads_write, hparsed]
      exact Nat.le_add_right ..
    · simp only [reads_storeFile]
      rw [← hparsed]
      exact reads_readChain dev h0 _ _ _

theorem reads_importEntries (dev : Device) (h0 : 0 < boot.clusterSize) (mountpoint : List UInt8)
    (offsets : List ℕ) (m : Mount) :
    (importEntries dev boot mountpoint offsets m).reads.length ≤
      m.reads.length + offsets.length * (2 * (4096 ⌈/⌉ boot.clusterSize)) := by
  induction offsets generalizing m with
  | nil => exact Nat.le_add_right ..
  | cons offset offsets ih =>
    have hentry := reads_importEntry dev h0 mountpoint offset m
    rw [importEntries]
    generalize importEntry dev boot mountpoint offset m = r at hentry ⊢
    obtain ⟨goOn, m₁⟩ := r
    rw [List.length_cons, Nat.succ_mul]
    cases goOn with
    | false =>
      simp only [Bool.false_eq_true, if_false] at hentry ⊢
      omega
    | true =>
      have hrest := ih m₁
      simp only [if_true] at hentry ⊢
      omega

theorem length_entryOffsets (size : ℕ) : (entryOffsets size).length = size / 32 := by
  rw [entryOffsets, List.length_map, List.length_range]

theorem reads_ensureMountpoint (mountpoint : List UInt8) (m : Mount) :
    (ensureMountpoint mountpoint m).2.reads = m.reads := by
  unfold ensureMountpoint
  split <;> rfl

theorem reads_mountBoot (dev : Device) (boot : Boot) (mountpoint : List UInt8) (m : Mount) :
    (mountBoot dev boot mountpoint m).2.reads.length ≤
      m.reads.length + 1 + boot.clusterSize / 32 * (2 * (4096 ⌈/⌉ boot.clusterSize)) := by
  have hens := reads_ensureMountpoint mountpoint m
  by_cases h0 : boot.bytesPerSector = 0
  · rw [mountBoot, if_pos h0, reads_write]
    omega
  by_cases hM : Mountable m.vfs mountpoint
  swap
  · have hfail : (ensureMountpoint mountpoint m).1 = false :=
      Bool.eq_false_iff.mpr fun h => hM ((ensureMountpoint_fst mountpoint m).mp h)
    rw [mountBoot, if_neg h0]
    simp only [hfail, Bool.not_false, if_true, reads_write, hens]
    omega
  by_cases hs : boot.clusterSize ≤ 8192
  swap
  · have hok := (ensureMountpoint_fst mountpoint m).mpr hM
    rw [mountBoot, if_neg h0]
    simp only [hok, Bool.not_true, Bool.false_eq_true, if_false, Buffer.size, gt_iff_lt,
      Nat.lt_of_not_le hs, if_true, reads_write, hens]
    omega
  have hroot : (rootRead dev boot mountpoint m).reads.length = m.reads.length + 1 := by
    rw [rootRead, length_reads_blockRead, hens]
  rw [mountBoot_of_accepted h0 hM hs]
  split
  · simp only [reads_write]
    rcases Nat.eq_zero_or_pos boot.clusterSize with hc | hc
    · rw [hc, entryOffsets]
      simp only [Nat.zero_div, List.range_zero, List.map_nil, importEntries, hroot]
      omega
    · have hle := reads_importEntries dev hc mountpoint (entryOffsets boot.clusterSize)
        (rootRead dev boot mountpoint m)
      rwa [length_entryOffsets, hroot] at hle
  · simp only [reads_write, hroot]
    omega

/-! ## Runs -/

theorem entriesRun_importEntries (dev : Device) (h0 : 0 < boot.clusterSize)
    (mountpoint : List UInt8) (offsets : List ℕ) (m : Mount) :
    EntriesRun dev boot mountpoint offsets m (importEntries dev boot mountpoint offsets m) := by
  induction offsets generalizing m with
  | nil => exact .done m
  | cons offset offsets ih =>
    have hcases := importEntry_cases dev boot mountpoint offset m
    rw [importEntries]
    cases hk : entryKind (m.buffers .clusterBuf) offset <;> simp only [hk] at hcases
    case last =>
      simp only [hcases, Bool.false_eq_true, if_false]
      exact .leave hcases
    case skipped =>
      obtain ⟨is, -, he⟩ := hcases
      simp only [he, if_true]
      exact .plain (by simp [hk]) he (ih _)
    case empty =>
      simp only [hcases, if_true]
      exact .plain (by simp [hk]) hcases (ih _)
    case file =>
      simp only [hcases, if_true]
      rw [importFile_eq]
      split
      · next hs => exact .unsupported hk hs (ih _)
      · next hs =>
        exact .file hk hs ((exits_iff dev h0 _ _ _ _).mpr rfl) (ih _)

theorem EntriesRun.eq (h0 : 0 < boot.clusterSize) {offsets : List ℕ}
    (h : EntriesRun dev boot mountpoint offsets m m') :
    m' = importEntries dev boot mountpoint offsets m := by
  induction h with
  | done m => rfl
  | leave h =>
    rw [importEntries, h]
    rfl
  | plain hk h hr ih =>
    rw [importEntries, h]
    exact ih
  | @unsupported offset offsets m m'' hk hs hr ih =>
    have hcases := importEntry_cases dev boot mountpoint offset m
    simp only [hk] at hcases
    rw [importFile_eq, if_pos hs] at hcases
    rw [importEntries, hcases]
    exact ih
  | @file offset offsets m m' m'' written hk hs hc hr ih =>
    have hcases := importEntry_cases dev boot mountpoint offset m
    have hchain := (exits_iff dev h0 _ _ _ _).mp hc
    simp only [hk] at hcases
    rw [importFile_eq, if_neg hs, ← hchain] at hcases
    rw [importEntries, hcases]
    exact ih

/-- The loop over the directory has one run. If clusters are empty, it has no rounds. -/
theorem entriesRun_iff (dev : Device) (boot : Boot) (mountpoint : List UInt8) (m m' : Mount) :
    EntriesRun dev boot mountpoint (entryOffsets boot.clusterSize) m m' ↔
      m' = importEntries dev boot mountpoint (entryOffsets boot.clusterSize) m := by
  rcases Nat.eq_zero_or_pos boot.clusterSize with hc | hc
  · have hnil : entryOffsets boot.clusterSize = [] := by rw [hc]; rfl
    rw [hnil]
    constructor
    · rintro ⟨⟩
      rfl
    · rintro rfl
      exact .done _
  · constructor
    · exact EntriesRun.eq hc
    · rintro rfl
      exact entriesRun_importEntries dev hc mountpoint _ m

theorem bootRun_iff (dev : Device) (boot : Boot) (mountpoint : List UInt8) (m : Mount)
    (r : Bool × Mount) :
    BootRun dev boot mountpoint m r ↔ r = mountBoot dev boot mountpoint m := by
  constructor
  · intro h
    cases h with
    | noSectorSize h0 => rw [mountBoot, if_pos h0]
    | noMountpoint h0 he =>
      rw [mountBoot, if_neg h0]
      simp only [he, Bool.not_false, if_true]
    | largeCluster h0 he hs =>
      rw [mountBoot, if_neg h0]
      simp only [he, Bool.not_true, Bool.false_eq_true, if_false, hs, if_true]
    | noRoot h0 he hs hr =>
      rw [mountBoot, if_neg h0]
      simp only [he, Bool.not_true, Bool.false_eq_true, if_false, hs, hr, Bool.not_false, if_true]
      rfl
    | mounted h0 he hs hr hm =>
      rw [mountBoot, if_neg h0]
      simp only [he, Bool.not_true, Bool.false_eq_true, if_false, hs, hr]
      rw [(entriesRun_iff dev boot mountpoint _ _).mp hm]
      rfl
  · rintro rfl
    by_cases h0 : boot.bytesPerSector = 0
    · rw [mountBoot, if_pos h0]
      exact .noSectorSize h0
    rw [mountBoot, if_neg h0]
    dsimp only
    split
    · next he => exact .noMountpoint h0 (by simpa using he)
    next he =>
    have hok : (ensureMountpoint mountpoint m).1 = true := by simpa using he
    split
    · next hs => exact .largeCluster h0 hok hs
    next hs =>
    split
    · next hr => exact .noRoot h0 hok hs (by simpa using hr)
    · next hr =>
      exact .mounted h0 hok hs (by simpa using hr)
        ((entriesRun_iff dev boot mountpoint _ _).mpr rfl)

theorem mountRun_iff (dev : Device) (mountpoint : List UInt8) (m : Mount) (r : Bool × Mount) :
    MountRun dev mountpoint m r ↔ r = fat32Mount dev mountpoint m := by
  constructor
  · intro h
    cases h with
    | notFound h => simp only [fat32Mount, h, Bool.not_false, if_true]
    | noBootSector h hb =>
      simp only [fat32Mount, h, hb, Bool.not_true, Bool.not_false, Bool.false_eq_true, if_false,
        if_true]
    | booted h hb hr =>
      rw [fat32Mount_eq_mountBoot mountpoint h hb]
      exact (bootRun_iff dev _ mountpoint _ r).mp hr
  · rintro rfl
    cases h : dev.found with
    | false =>
      simp only [fat32Mount, h, Bool.not_false, if_true]
      exact .notFound h
    | true =>
      cases hb : (blockRead dev 0 .sector 1 m).1 with
      | false =>
        simp only [fat32Mount, h, hb, Bool.not_true, Bool.not_false, Bool.false_eq_true, if_false,
          if_true]
        exact .noBootSector h hb
      | true =>
        rw [fat32Mount_eq_mountBoot mountpoint h hb]
        exact .booted h hb ((bootRun_iff dev _ mountpoint _ _).mpr rfl)

/-- On every device, from every state and for every mountpoint, a mount has exactly one run,
without a division by zero, and issues a bounded number of reads. -/
theorem fat32Mount_terminates (dev : Device) (mountpoint : List UInt8) (m : Mount) :
    (∀ r, MountRun dev mountpoint m r ↔ r = fat32Mount dev mountpoint m) ∧
    (fat32Mount dev mountpoint m).2.reads.length ≤ m.reads.length +
      (2 + 2 * ((diskBoot dev m).clusterSize / 32) * (4096 ⌈/⌉ (diskBoot dev m).clusterSize)) := by
  refine ⟨mountRun_iff dev mountpoint m, ?_⟩
  cases h : dev.found with
  | false =>
    simp only [fat32Mount, h, Bool.not_false, if_true, reads_write]
    exact Nat.le_add_right ..
  | true =>
    cases hb : (blockRead dev 0 .sector 1 m).1 with
    | false =>
      simp only [fat32Mount, h, hb, Bool.not_true, Bool.not_false, Bool.false_eq_true, if_false,
        if_true, reads_write, length_reads_blockRead]
      omega
    | true =>
      have hle := reads_mountBoot dev (diskBoot dev m) mountpoint (bootRead dev m)
      have hboot : (bootRead dev m).reads.length = m.reads.length + 1 := rfl
      rw [hboot] at hle
      rw [fat32Mount_eq_mountBoot mountpoint h hb, Nat.mul_assoc, Nat.mul_left_comm]
      exact hle.trans (by omega)

end Wnu.Fat32
