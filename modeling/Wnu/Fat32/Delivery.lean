import Wnu.Fat32.Rounds

/-! # What a disk delivers of a file

The loop over the clusters of a file ends when it has what is wanted, when a read fails
and when the table has no next cluster, and the file is created with what has been read
so far in every case. So a file is whole exactly if the disk delivers all of it.
-/

namespace Wnu.Fat32

open Text Memory Vfs

structure DiskState where
  reads : ℕ
  clusterBuf : Mem UInt8
  fatSectorBuf : Mem UInt8

def Mount.disk (m : Mount) : DiskState :=
  ⟨m.reads.length, m.buffers .clusterBuf, m.buffers .fatSectorBuf⟩

variable {dev : Device} {boot : Boot} {mountpoint p : List UInt8} {m : Mount}
  {left bytesLeft written : ℕ} {cluster : UInt32} {d : DiskState}

def dataAnswer (dev : Device) (boot : Boot) (cluster : UInt32) (d : DiskState) : Bool × Mem UInt8 :=
  dev.read d.reads ⟨boot.sectorOfCluster cluster, .clusterBuf, boot.sectorsPerCluster.toNat⟩
    d.clusterBuf

def tableAnswer (dev : Device) (boot : Boot) (cluster : UInt32) (d : DiskState) :
    Bool × Mem UInt8 :=
  dev.read (d.reads + 1) ⟨boot.fatSector cluster, .fatSectorBuf, 1⟩ d.fatSectorBuf

def nextCluster (dev : Device) (boot : Boot) (cluster : UInt32) (d : DiskState) : UInt32 :=
  readU32 (tableAnswer dev boot cluster d).2 (boot.fatSectorOffset cluster).toNat &&& 0x0fffffff

def nextState (dev : Device) (boot : Boot) (cluster : UInt32) (d : DiskState) : DiskState :=
  ⟨d.reads + 2, (dataAnswer dev boot cluster d).2, (tableAnswer dev boot cluster d).2⟩

def GoesOn (dev : Device) (boot : Boot) (cluster : UInt32) (d : DiskState) : Prop :=
  (dataAnswer dev boot cluster d).1 = true ∧ (tableAnswer dev boot cluster d).1 = true ∧
    ¬ EndsChain (nextCluster dev boot cluster d)

instance : Decidable (GoesOn dev boot cluster d) := inferInstanceAs (Decidable (_ ∧ _ ∧ _))

/-- The disk delivers a number of bytes of the chain that starts with a cluster: every cluster
that is needed can be read, and the table can be read for and has the next one. -/
inductive Delivers (dev : Device) (boot : Boot) : ℕ → UInt32 → DiskState → Prop
  | last {left : ℕ} {cluster : UInt32} {d : DiskState}
      (hread : (dataAnswer dev boot cluster d).1 = true) (hle : left ≤ boot.clusterSize) :
      Delivers dev boot left cluster d
  | more {left : ℕ} {cluster : UInt32} {d : DiskState} (hgo : GoesOn dev boot cluster d)
      (hlt : boot.clusterSize < left)
      (hrest : Delivers dev boot (left - boot.clusterSize) (nextCluster dev boot cluster d)
        (nextState dev boot cluster d)) :
      Delivers dev boot left cluster d

/-- Every new file of the mount comes from an entry, and it has as many bytes as the entry says,
up to 4096. -/
def ImportsWhole (dev : Device) (mountpoint : List UInt8) (m : Mount) : Prop :=
  ∀ p ∈ newFiles m.vfs (fat32Mount dev mountpoint m).2.vfs, ∃ r ∈ rounds dev mountpoint m,
    r.Creates dev (diskBoot dev m) mountpoint p ∧
      ∃ node, (fat32Mount dev mountpoint m).2.vfs.node p = some node ∧
        node.contents.length = min r.size 4096

/-! ## The loop over the clusters -/

/-- The sectors that have been read into `cluster_buf`, the latest first. -/
def Mount.dataReads (m : Mount) : List UInt32 :=
  (m.reads.filter (·.buffer = .clusterBuf)).map Read.lba

def dataRead (dev : Device) (boot : Boot) (cluster : UInt32) (m : Mount) : Mount :=
  (blockRead dev (boot.sectorOfCluster cluster) .clusterBuf boot.sectorsPerCluster.toNat m).2

def tableRead (dev : Device) (boot : Boot) (cluster : UInt32) (written n : ℕ) (m : Mount) : Mount :=
  (blockRead dev (boot.fatSector cluster) .fatSectorBuf 1
    (copyCluster written n (dataRead dev boot cluster m))).2

theorem dataReads_dataRead (dev : Device) (boot : Boot) (cluster : UInt32) (m : Mount) :
    (dataRead dev boot cluster m).dataReads = boot.sectorOfCluster cluster :: m.dataReads := rfl

theorem dataReads_tableRead (dev : Device) (boot : Boot) (cluster : UInt32) (written n : ℕ)
    (m : Mount) : (tableRead dev boot cluster written n m).dataReads =
      boot.sectorOfCluster cluster :: m.dataReads := by
  have hreads : (tableRead dev boot cluster written n m).reads =
      ⟨boot.fatSector cluster, .fatSectorBuf, 1⟩ :: (dataRead dev boot cluster m).reads := by
    rw [← reads_copyCluster written n (dataRead dev boot cluster m)]
    rfl
  rw [← dataReads_dataRead dev, Mount.dataReads, hreads]
  rfl

/-- The table is read as if the cluster had not been copied. -/
theorem tableRead_answer (dev : Device) (boot : Boot) (cluster : UInt32) (written n : ℕ)
    (m : Mount) :
    (blockRead dev (boot.fatSector cluster) .fatSectorBuf 1
        (copyCluster written n (dataRead dev boot cluster m))).1 =
      (tableAnswer dev boot cluster m.disk).1 ∧
    (tableRead dev boot cluster written n m).disk = nextState dev boot cluster m.disk := by
  have hreads := reads_copyCluster written n (dataRead dev boot cluster m)
  have hbuf {b : Buffer} (hb : b ≠ .fileBuf) :
      (copyCluster written n (dataRead dev boot cluster m)).buffers b =
        (dataRead dev boot cluster m).buffers b := by
    rw [buffers_copyCluster, Function.update_of_ne hb]
  have hdata : (dataRead dev boot cluster m).buffers .clusterBuf =
      (dataAnswer dev boot cluster m.disk).2 := buffers_blockRead ..
  have hkept : (dataRead dev boot cluster m).buffers .fatSectorBuf = m.buffers .fatSectorBuf :=
    buffers_blockRead_of_ne dev _ (by decide) _ m
  have hanswer : dev.read (copyCluster written n (dataRead dev boot cluster m)).reads.length
      ⟨boot.fatSector cluster, .fatSectorBuf, 1⟩
      ((copyCluster written n (dataRead dev boot cluster m)).buffers .fatSectorBuf) =
      tableAnswer dev boot cluster m.disk := by
    rw [hreads, hbuf (by decide), hkept]
    rfl
  constructor
  · exact congrArg Prod.fst hanswer
  · have hlength : (tableRead dev boot cluster written n m).reads.length = m.reads.length + 2 := by
      rw [tableRead, length_reads_blockRead, hreads]
      rfl
    have htable : (tableRead dev boot cluster written n m).buffers .fatSectorBuf =
        (tableAnswer dev boot cluster m.disk).2 := by
      rw [tableRead, buffers_blockRead, hanswer]
    have hcluster : (tableRead dev boot cluster written n m).buffers .clusterBuf =
        (dataAnswer dev boot cluster m.disk).2 := by
      rw [tableRead, buffers_blockRead_of_ne dev _ (by decide), hbuf (by decide), hdata]
    rw [Mount.disk, hlength, htable, hcluster]
    rfl

theorem readChain_answers (dev : Device) (boot : Boot) (fuel : ℕ) (cluster : UInt32)
    (hroom : bytesLeft > 0 ∧ written < Buffer.fileBuf.size) (m : Mount) :
    ∃ m', m'.dataReads = boot.sectorOfCluster cluster :: m.dataReads ∧
      (GoesOn dev boot cluster m.disk → m'.disk = nextState dev boot cluster m.disk) ∧
      readChain dev boot (fuel + 1) cluster bytesLeft written m =
        if (dataAnswer dev boot cluster m.disk).1 = false then (written, m')
        else if GoesOn dev boot cluster m.disk then
          readChain dev boot fuel (nextCluster dev boot cluster m.disk)
            (bytesLeft - copySize boot bytesLeft written)
            (written + copySize boot bytesLeft written) m'
        else (written + copySize boot bytesLeft written, m') := by
  have hdata : (blockRead dev (boot.sectorOfCluster cluster) .clusterBuf
      boot.sectorsPerCluster.toNat m).1 = (dataAnswer dev boot cluster m.disk).1 := rfl
  rw [readChain, if_pos hroom]
  generalize copySize boot bytesLeft written = n
  have hsector := dataReads_tableRead dev boot cluster written n m
  obtain ⟨htable, hdisk⟩ := tableRead_answer dev boot cluster written n m
  have hentry : readU32 ((tableRead dev boot cluster written n m).buffers .fatSectorBuf)
      (boot.fatSectorOffset cluster).toNat &&& 0x0fffffff =
      nextCluster dev boot cluster m.disk := by
    rw [nextCluster, ← show (nextState dev boot cluster m.disk).fatSectorBuf =
      (tableAnswer dev boot cluster m.disk).2 from rfl, ← hdisk]
    rfl
  simp only [hdata, ← dataRead.eq_def, ← tableRead.eq_def, htable, fatEntry, hentry]
  cases hd : (dataAnswer dev boot cluster m.disk).1 with
  | false =>
    refine ⟨(dataRead dev boot cluster m).write "fat32: failed to read file cluster\n",
      dataReads_dataRead dev boot cluster m, fun hgo => ?_, by simp⟩
    rw [GoesOn, hd] at hgo
    cases hgo.1
  | true =>
    cases ht : (tableAnswer dev boot cluster m.disk).1 with
    | false =>
      have hstop : ¬ GoesOn dev boot cluster m.disk := by
        rw [GoesOn, ht]
        simp
      exact ⟨(tableRead dev boot cluster written n m).write "fat32: failed to read FAT sector\n",
        hsector, fun hgo => absurd hgo hstop, by simp [hstop]⟩
    | true =>
      refine ⟨(fatEntry (boot.fatSectorOffset cluster).toNat
        (tableRead dev boot cluster written n m)).2, hsector, fun _ => hdisk, ?_⟩
      by_cases hend : EndsChain (nextCluster dev boot cluster m.disk)
      · have hstop : ¬ GoesOn dev boot cluster m.disk := fun hgo => hgo.2.2 hend
        rcases hend with hend | hend <;> simp [hstop, hend, fatEntry]
      · have hgo : GoesOn dev boot cluster m.disk := ⟨hd, ht, hend⟩
        obtain ⟨hlt, hne⟩ := not_or.mp hend
        simp [hgo, hlt, hne, fatEntry]

theorem delivers_last_iff (hle : left ≤ boot.clusterSize) :
    Delivers dev boot left cluster d ↔ (dataAnswer dev boot cluster d).1 = true := by
  constructor
  · rintro (⟨hread, -⟩ | ⟨-, hlt, -⟩)
    · exact hread
    · exact absurd hle (Nat.not_le.mpr hlt)
  · intro hread
    exact .last hread hle

theorem delivers_more_iff (hlt : boot.clusterSize < left) :
    Delivers dev boot left cluster d ↔ GoesOn dev boot cluster d ∧
      Delivers dev boot (left - boot.clusterSize) (nextCluster dev boot cluster d)
        (nextState dev boot cluster d) := by
  constructor
  · rintro (⟨-, hle⟩ | ⟨hgo, -, hrest⟩)
    · exact absurd hle (Nat.not_le.mpr hlt)
    · exact ⟨hgo, hrest⟩
  · rintro ⟨hgo, hrest⟩
    exact .more hgo hlt hrest

/-- The loop reads all that is wanted exactly if the disk delivers it. -/
theorem readChain_eq_iff (dev : Device) (h0 : 0 < boot.clusterSize) (fuel : ℕ) (cluster : UInt32)
    (bytesLeft written : ℕ) (hf : Buffer.fileBuf.size ≤ written + fuel)
    (hleft : min bytesLeft (Buffer.fileBuf.size - written) = left) (hpos : 0 < left) (m : Mount) :
    (readChain dev boot fuel cluster bytesLeft written m).1 = written + left ↔
      Delivers dev boot left cluster m.disk := by
  induction fuel generalizing bytesLeft written cluster left m with
  | zero => omega
  | succ fuel ih =>
    have hroom : bytesLeft > 0 ∧ written < Buffer.fileBuf.size := by omega
    have hcopy : copySize boot bytesLeft written = min boot.clusterSize left := by
      rw [copySize_eq_min, hleft]
    obtain ⟨m', -, hdisk, he⟩ := readChain_answers dev boot fuel cluster hroom m
    rw [he, hcopy]
    rcases Nat.lt_or_ge boot.clusterSize left with hlt | hle
    · -- the table is needed
      rw [Nat.min_eq_left hlt.le, delivers_more_iff hlt]
      by_cases hgo : GoesOn dev boot cluster m.disk
      · have hread : ¬ (dataAnswer dev boot cluster m.disk).1 = false := by simp [hgo.1]
        have hnext : min (bytesLeft - boot.clusterSize)
            (Buffer.fileBuf.size - (written + boot.clusterSize)) = left - boot.clusterSize := by
          omega
        have hrest := ih (nextCluster dev boot cluster m.disk) (bytesLeft - boot.clusterSize)
          (written + boot.clusterSize) (by omega) hnext (by omega) m'
        have hsum : written + boot.clusterSize + (left - boot.clusterSize) = written + left := by
          omega
        rw [hdisk hgo, hsum] at hrest
        rw [if_neg hread, if_pos hgo, hrest]
        exact (and_iff_right hgo).symm
      · rw [if_neg hgo]
        refine iff_of_false ?_ fun h => hgo h.1
        split <;> simp only <;> omega
    · -- this cluster is the last that is needed
      have hdone : ¬ (bytesLeft - left > 0 ∧ written + left < Buffer.fileBuf.size) := by omega
      rw [Nat.min_eq_right hle, delivers_last_iff hle, readChain_of_done dev boot fuel _ hdone,
        ite_self]
      cases hread : (dataAnswer dev boot cluster m.disk).1 with
      | true => simp
      | false =>
        refine iff_of_false ?_ Bool.false_ne_true
        rw [if_pos rfl]
        simp only
        omega

/-! ## Files -/

theorem disk_parsed (offset : ℕ) (m : Mount) : (parsed offset m).disk = m.disk := by
  have hparsed := wrote_parsed offset m
  rw [Mount.disk, hparsed.reads, hparsed.buffers_of_ne (by decide),
    hparsed.buffers_of_ne (by decide)]
  rfl

/-- A round writes as many bytes as its entry says, up to 4096, if there are none or the disk
delivers them. -/
theorem Round.length_contents_iff (dev : Device) (h0 : 0 < boot.clusterSize) (r : Round) :
    (r.contents dev boot).length = min r.size 4096 ↔
      (r.size ≠ 0 → Delivers dev boot (min r.size 4096) r.start r.before.disk) := by
  by_cases hsize : r.size = 0
  · simp [Round.contents, hsize]
  · have hwant : min r.size (Buffer.fileBuf.size - 0) = min r.size 4096 := rfl
    have hpos : 0 < min r.size 4096 := Nat.lt_min.mpr ⟨Nat.pos_of_ne_zero hsize, by decide⟩
    have hchain := readChain_eq_iff dev h0 chainFuel r.start r.size 0 (Nat.le_of_eq rfl) hwant
      hpos (parsed r.offset r.before)
    rw [Nat.zero_add, disk_parsed] at hchain
    rw [Round.contents, if_neg hsize, length_window, Round.chain, hchain]
    exact ⟨fun h _ => h, fun h => h hsize⟩

/-- In every mount, on every device and from every reachable file system: all new files are whole
exactly if, in every round that adds a file with contents, the disk delivers the bytes that are
wanted. -/
theorem importsWhole_iff (dev : Device) (mountpoint : List UInt8) (h : Reachable m.vfs) :
    ImportsWhole dev mountpoint m ↔ ∀ r ∈ rounds dev mountpoint m,
      r.Adds (diskBoot dev m) mountpoint → r.size ≠ 0 →
      Delivers dev (diskBoot dev m) (min r.size 4096) r.start r.before.disk := by
  refine (forall_newFiles_iff dev mountpoint h.inv _).trans ?_
  refine forall₂_congr fun r hr => forall_congr' fun ha => ?_
  have hle := offset_add_le hr
  obtain ⟨node, hn, -, hcontents⟩ := node_fat32Mount_of_adds h.inv hr ha
  rw [← Round.length_contents_iff dev (by omega) r, ← hcontents, hn]
  simp

/-- Both files of a volume fit a cluster, and every read succeeds. -/
theorem importsWhole_iff_twoFiles :
    ImportsWhole (imageDevice twoFiles) (ascii "/tmp") freshMount := by
  have hsizes : ∀ r ∈ rounds (imageDevice twoFiles) (ascii "/tmp") freshMount,
      r.size ≤ (diskBoot (imageDevice twoFiles) freshMount).clusterSize := by
    decide +kernel
  refine (importsWhole_iff (imageDevice twoFiles) (ascii "/tmp") reachable_freshMount).mpr ?_
  intro r hr _ _
  exact .last rfl ((Nat.min_le_left _ _).trans (hsizes r hr))

/-- The disk of an image, with one sector that cannot be read. -/
def badSector (image : Mem UInt8) (lba : UInt32) : Device where
  found := true
  read n r buffer :=
    if r.lba = lba then (false, buffer) else (imageDevice image).read n r buffer

/-- The sector of `A` cannot be read. The mount returns 1 and leaves an empty `A`. -/
theorem not_importsWhole_badSector :
    Reachable freshMount.vfs ∧
      (fat32Mount (badSector twoFiles 3) (ascii "/tmp") freshMount).1 = true ∧
      ¬ ImportsWhole (badSector twoFiles 3) (ascii "/tmp") freshMount := by
  have hok : (fat32Mount (badSector twoFiles 3) (ascii "/tmp") freshMount).1 = true := by
    decide +kernel
  have hnew : freshMount.vfs.node (ascii "/tmp/A") = none ∧
      ((fat32Mount (badSector twoFiles 3) (ascii "/tmp") freshMount).2.vfs.node
        (ascii "/tmp/A")).map (fun node => (node.type, node.contents.length)) =
        some (.file, 0) := by
    decide +kernel
  have hsizes : ∀ r ∈ rounds (badSector twoFiles 3) (ascii "/tmp") freshMount,
      r.before.vfs.node (ascii "/tmp/A") = none → r.size = 1 := by
    decide +kernel
  refine ⟨reachable_freshMount, hok, fun hwhole => ?_⟩
  obtain ⟨habsent, hmap⟩ := hnew
  obtain ⟨node, hn, hnode⟩ := Option.map_eq_some_iff.mp hmap
  obtain ⟨hfile, hzero⟩ := Prod.ext_iff.mp hnode
  obtain ⟨r, hr, hp, node', hn', hlength⟩ := hwhole _ ⟨habsent, node, hn, hfile⟩
  obtain rfl := Option.some.inj (hn.symm.trans hn')
  rw [hsizes r hr hp.1] at hlength
  exact absurd (hlength.symm.trans hzero) (by decide)

end Wnu.Fat32
