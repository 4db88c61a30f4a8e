import Wnu.Fat32.Delivery
import Wnu.Fat32.Files
import Mathlib.Data.List.Forall2

/-! # The sectors of clusters

A mount reads the cluster of the root directory and then those that the entries and the
table lead to. No cluster is checked before its sector is computed in words, except that
the table has no free cluster and no end mark as a next one.
-/

namespace Wnu.Fat32

open Text Memory Vfs

variable {dev : Device} {boot : Boot} {mountpoint : List UInt8} {m : Mount} {r : Round}
  {left : ℕ} {cluster : UInt32} {d : DiskState}

def askedClusters (dev : Device) (boot : Boot) : ℕ → ℕ → UInt32 → DiskState → List UInt32
  | 0, _, _, _ => []
  | fuel + 1, left, cluster, d =>
    if left = 0 then []
    else cluster ::
      if GoesOn dev boot cluster d then
        askedClusters dev boot fuel (left - boot.clusterSize) (nextCluster dev boot cluster d)
          (nextState dev boot cluster d)
      else []

def Round.asked (dev : Device) (boot : Boot) (r : Round) : List UInt32 :=
  if entryKind r.bytes r.offset = .file ∧ boot.bytesPerSector.toNat ≤ Buffer.fatSectorBuf.size then
    askedClusters dev boot chainFuel (min r.size 4096) r.start r.before.disk
  else []

def clustersRead (dev : Device) (mountpoint : List UInt8) (m : Mount) : List UInt32 :=
  (diskBoot dev m).rootCluster ::
    (rounds dev mountpoint m).flatMap (Round.asked dev (diskBoot dev m))

/-- The sector is that of the cluster over the integers, and no step of its computation in words
wraps. -/
structure InDataArea (boot : Boot) (lba cluster : UInt32) : Prop where
  two_le : 2 ≤ cluster.toNat
  tables : (boot.numFats.toUInt32 * boot.fatSize).toNat = boot.numFats.toNat * boot.fatSize.toNat
  first : boot.firstDataSector.toNat =
    boot.reservedSectors.toNat + boot.numFats.toNat * boot.fatSize.toNat
  index : (cluster - 2).toNat = cluster.toNat - 2
  offset : ((cluster - 2) * boot.sectorsPerCluster.toUInt32).toNat =
    (cluster.toNat - 2) * boot.sectorsPerCluster.toNat
  lba : lba.toNat = boot.dataSector cluster.toNat

/-! ## One cluster -/

theorem inDataArea_iff (boot : Boot) (cluster : UInt32) :
    InDataArea boot (boot.sectorOfCluster cluster) cluster ↔
      2 ≤ cluster.toNat ∧ boot.dataSector cluster.toNat < 2 ^ 32 := by
  constructor
  · intro h
    refine ⟨h.two_le, ?_⟩
    rw [← h.lba]
    exact UInt32.toNat_lt _
  · rintro ⟨h2, hlt⟩
    have hlba := Boot.toNat_sectorOfCluster h2 hlt
    unfold Boot.dataSector at hlt
    have hsub := toNat_sub_two h2
    have htables : boot.numFats.toNat * boot.fatSize.toNat < 2 ^ 32 := by omega
    have hoffset : (cluster.toNat - 2) * boot.sectorsPerCluster.toNat < 2 ^ 32 := by omega
    refine ⟨h2, ?_, Boot.toNat_firstDataSector (by omega), hsub, ?_, hlba⟩
    · rw [UInt32.toNat_mul, UInt8.toNat_toUInt32, Nat.mod_eq_of_lt htables]
    · rw [UInt32.toNat_mul, UInt8.toNat_toUInt32, hsub, Nat.mod_eq_of_lt hoffset]

/-! ## What is read -/

theorem dataReads_readChain (dev : Device) (boot : Boot) (fuel : ℕ) (cluster : UInt32)
    (bytesLeft written : ℕ) (hleft : min bytesLeft (Buffer.fileBuf.size - written) = left)
    (m : Mount) :
    (readChain dev boot fuel cluster bytesLeft written m).2.dataReads =
      ((askedClusters dev boot fuel left cluster m.disk).map boot.sectorOfCluster).reverse ++
        m.dataReads := by
  induction fuel generalizing bytesLeft written cluster left m with
  | zero => rfl
  | succ fuel ih =>
    rw [askedClusters]
    by_cases hroom : bytesLeft > 0 ∧ written < Buffer.fileBuf.size
    · obtain ⟨m', hreads, hdisk, he⟩ := readChain_answers dev boot fuel cluster hroom m
      have hne : left ≠ 0 := by omega
      have hsingle : m'.dataReads =
          ([cluster].map boot.sectorOfCluster).reverse ++ m.dataReads := hreads
      rw [he, if_neg hne]
      by_cases hgo : GoesOn dev boot cluster m.disk
      · have hcopy := copySize_eq_min boot bytesLeft written
        have hread : ¬ (dataAnswer dev boot cluster m.disk).1 = false := by simp [hgo.1]
        have hnext : min (bytesLeft - copySize boot bytesLeft written)
            (Buffer.fileBuf.size - (written + copySize boot bytesLeft written)) =
            left - boot.clusterSize := by
          omega
        have hrest := ih (nextCluster dev boot cluster m.disk) _ _ hnext m'
        rw [if_neg hread, if_pos hgo, if_pos hgo, hrest, hdisk hgo, hreads]
        simp
      · rw [if_neg hgo, if_neg hgo, ← hsingle]
        split <;> rfl
    · have hzero : left = 0 := by omega
      rw [readChain_of_done dev boot _ cluster hroom, if_pos hzero]
      rfl

theorem dataReads_of_reads {m m' : Mount} (h : m'.reads = m.reads) : m'.dataReads = m.dataReads :=
  congrArg (fun reads => (reads.filter (·.buffer = .clusterBuf)).map Read.lba) h

theorem Round.dataReads_after (dev : Device) (boot : Boot) (mountpoint : List UInt8) (r : Round) :
    (r.after dev boot mountpoint).dataReads =
      ((r.asked dev boot).map boot.sectorOfCluster).reverse ++ r.before.dataReads := by
  have hparsed := (wrote_parsed r.offset r.before).reads
  have hcases := importEntry_cases dev boot mountpoint r.offset r.before
  rw [asked, bytes]
  cases hk : entryKind (r.before.buffers .clusterBuf) r.offset <;> simp only [hk] at hcases
  case last =>
    rw [after, hcases]
    rfl
  case skipped =>
    obtain ⟨is, -, he⟩ := hcases
    rw [after, he]
    rfl
  case empty =>
    have hjoin := (wrote_joinPath mountpoint (parsed r.offset r.before)).reads
    rw [after, hcases]
    exact dataReads_of_reads (hjoin.trans hparsed)
  case file =>
    rw [after, hcases, importFile_eq]
    by_cases hmax : boot.bytesPerSector.toNat ≤ Buffer.fatSectorBuf.size
    · have hchain := dataReads_readChain dev boot chainFuel r.start r.size 0 rfl
        (parsed r.offset r.before)
      rw [disk_parsed, dataReads_of_reads hparsed] at hchain
      rw [if_neg (Nat.not_lt.mpr hmax), if_pos ⟨rfl, hmax⟩,
        dataReads_of_reads (reads_storeFile mountpoint _ _ _)]
      exact hchain
    · rw [if_pos (Nat.lt_of_not_le hmax), if_neg fun h => hmax h.2]
      exact dataReads_of_reads hparsed

theorem dataReads_importEntries (dev : Device) (boot : Boot) (mountpoint : List UInt8)
    (offsets : List ℕ) (m : Mount) :
    (importEntries dev boot mountpoint offsets m).dataReads =
      (((roundsFrom dev boot mountpoint offsets m).flatMap (Round.asked dev boot)).map
        boot.sectorOfCluster).reverse ++ m.dataReads := by
  induction offsets generalizing m with
  | nil => rfl
  | cons offset offsets ih =>
    have hfirst : (importEntry dev boot mountpoint offset m).2.dataReads = _ :=
      Round.dataReads_after dev boot mountpoint ⟨offset, m⟩
    rw [importEntries_cons, roundsFrom_cons, List.flatMap_cons, List.map_append,
      List.reverse_append, List.append_assoc, ← hfirst]
    split
    · exact ih _
    · rfl

/-- A mount that is admitted reads the clusters that it asks for. -/
theorem dataReads_fat32Mount (ha : Admits dev mountpoint m) :
    (fat32Mount dev mountpoint m).2.dataReads =
      ((clustersRead dev mountpoint m).map (diskBoot dev m).sectorOfCluster).reverse ++
        m.dataReads := by
  have hfirst : (firstState dev mountpoint m).dataReads =
      (diskBoot dev m).sectorOfCluster (diskBoot dev m).rootCluster :: m.dataReads := by
    have hens := reads_ensureMountpoint mountpoint (bootRead dev m)
    simp only [Mount.dataReads, firstState, rootRead, blockRead, hens]
    rfl
  rw [clustersRead, rounds, List.map_cons, List.reverse_cons, List.append_assoc,
    List.singleton_append, ← hfirst]
  rcases fat32Mount_of_admits ha with ⟨s, he⟩ | ⟨s, he⟩
  · rw [he]
    rfl
  · rw [he, if_pos rfl]
    exact dataReads_importEntries dev (diskBoot dev m) mountpoint _ _

/-- In every mount that is admitted: every sector that is read for the cluster of the root
directory or of a file is that of the cluster, computed without a wrap, exactly if no cluster that
is asked for is 0 or 1 or has a sector from 2 ^ 32 on. -/
theorem reads_inDataArea_iff (dev : Device) (mountpoint : List UInt8) (t : Table)
    (buffers : Buffer → Mem UInt8) (ha : Admits dev mountpoint (.start t buffers)) :
    let m := Mount.start t buffers
    List.Forall₂ (InDataArea (diskBoot dev m)) (fat32Mount dev mountpoint m).2.dataReads.reverse
        (clustersRead dev mountpoint m) ↔
      ∀ cluster ∈ clustersRead dev mountpoint m,
        2 ≤ cluster.toNat ∧ (diskBoot dev m).dataSector cluster.toNat < 2 ^ 32 := by
  intro m
  have hreads : (fat32Mount dev mountpoint m).2.dataReads.reverse =
      (clustersRead dev mountpoint m).map (diskBoot dev m).sectorOfCluster := by
    have hnone : m.dataReads = [] := rfl
    rw [dataReads_fat32Mount ha, hnone, List.append_nil, List.reverse_reverse]
  rw [hreads, List.forall₂_map_left_iff, List.forall₂_same]
  exact forall₂_congr fun cluster _ => inDataArea_iff (diskBoot dev m) cluster

theorem admits_image {image : Mem UInt8}
    (hboot : (diskBoot (imageDevice image) freshMount).bytesPerSector ≠ 0)
    (hsize : (diskBoot (imageDevice image) freshMount).clusterSize ≤ 8192) :
    Admits (imageDevice image) (ascii "/tmp") freshMount := by
  have hexists : exists' freshMount.vfs (ascii "/tmp") = true := by decide +kernel
  exact ⟨rfl, rfl, hboot, .inl hexists, hsize⟩

/-- The clusters 2 and 3 are read. -/
theorem reads_inDataArea_iff_twoFiles :
    List.Forall₂ (InDataArea (diskBoot (imageDevice twoFiles) freshMount))
      (fat32Mount (imageDevice twoFiles) (ascii "/tmp") freshMount).2.dataReads.reverse
      (clustersRead (imageDevice twoFiles) (ascii "/tmp") freshMount) := by
  have ha : Admits (imageDevice twoFiles) (ascii "/tmp") freshMount :=
    admits_image (by decide +kernel) (by decide +kernel)
  have hclusters : clustersRead (imageDevice twoFiles) (ascii "/tmp") freshMount = [2, 3] := by
    decide +kernel
  refine (reads_inDataArea_iff (imageDevice twoFiles) (ascii "/tmp") (init staticTable)
    (fun _ _ => 0) ha).mpr ?_
  intro cluster hc
  have hmem : cluster ∈ [2, 3] := by
    rw [← hclusters]
    exact hc
  rcases List.mem_pair.mp hmem with rfl | rfl
  · constructor <;> decide +kernel
  · constructor <;> decide +kernel

/-- The root directory holds `A`, of one byte in cluster 1. -/
def lowStart : Mem UInt8 := sparseImage (smallBoot ++ smallEntry 0 'A'.toUInt8 1 1)

/-- The sector that is read for cluster 1 is the last before the data area. -/
theorem not_inDataArea_lowStart :
    Admits (imageDevice lowStart) (ascii "/tmp") freshMount ∧
      ¬ List.Forall₂ (InDataArea (diskBoot (imageDevice lowStart) freshMount))
        (fat32Mount (imageDevice lowStart) (ascii "/tmp") freshMount).2.dataReads.reverse
        (clustersRead (imageDevice lowStart) (ascii "/tmp") freshMount) := by
  have hclusters : clustersRead (imageDevice lowStart) (ascii "/tmp") freshMount = [2, 1] := by
    decide +kernel
  refine ⟨admits_image (by decide +kernel) (by decide +kernel), fun h => ?_⟩
  rw [hclusters] at h
  generalize (fat32Mount (imageDevice lowStart) (ascii "/tmp") freshMount).2.dataReads.reverse =
    reads at h
  cases h with
  | cons _ hrest =>
    cases hrest with
    | cons hlow _ => exact absurd hlow.two_le (by decide)

end Wnu.Fat32
