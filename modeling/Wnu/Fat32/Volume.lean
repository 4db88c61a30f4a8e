import Wnu.Fat32.Mount

/-! # FAT32 volumes

A volume is an image of bytes in sectors of 512. Its clusters, the entries of its
table and the chains of its files are read from the image over the naturals.
-/

namespace Wnu.Fat32

open Memory Vfs

/-- A device that never fails and returns the sectors of an image. -/
def imageDevice (image : Mem UInt8) : Device where
  found := true
  read _ r buffer :=
    (true, copyLoop buffer 0 (fun i => image (512 * r.lba.toNat + i)) (512 * r.count))

def Boot.dataSector (boot : Boot) (cluster : ℕ) : ℕ :=
  boot.reservedSectors.toNat + boot.numFats.toNat * boot.fatSize.toNat +
    (cluster - 2) * boot.sectorsPerCluster.toNat

def clusterBytes (image : Mem UInt8) (cluster : ℕ) : Mem UInt8 :=
  fun i => image (512 * (bootOf image).dataSector cluster + i)

def tableEntry (image : Mem UInt8) (cluster : ℕ) : UInt32 :=
  readU32 image (512 * (bootOf image).reservedSectors.toNat + 4 * cluster) &&& 0x0fffffff

def EndsChain (entry : UInt32) : Prop := entry ≥ 0x0ffffff8 ∨ entry = 0

instance (entry : UInt32) : Decidable (EndsChain entry) := inferInstanceAs (Decidable (_ ∨ _))

def chain (image : Mem UInt8) (start : ℕ) : ℕ → ℕ
  | 0 => start
  | i + 1 => (tableEntry image (chain image start i)).toNat

structure InVolume (image : Mem UInt8) (cluster : ℕ) : Prop where
  two_le : 2 ≤ cluster
  lt_end : cluster < 0x0ffffff8
  sector_le : (bootOf image).dataSector cluster + (bootOf image).sectorsPerCluster.toNat ≤ 2 ^ 32

instance (image : Mem UInt8) (cluster : ℕ) : Decidable (InVolume image cluster) :=
  decidable_of_iff (2 ≤ cluster ∧ cluster < 0x0ffffff8 ∧
    (bootOf image).dataSector cluster + (bootOf image).sectorsPerCluster.toNat ≤ 2 ^ 32)
    ⟨fun h => ⟨h.1, h.2.1, h.2.2⟩, fun h => ⟨h.two_le, h.lt_end, h.sector_le⟩⟩

def chainBytes (image : Mem UInt8) (start : ℕ) : Mem UInt8 := fun i =>
  clusterBytes image (chain image start (i / (bootOf image).clusterSize))
    (i % (bootOf image).clusterSize)

def fileContents (image : Mem UInt8) (start size : ℕ) : List UInt8 :=
  window (chainBytes image start) (min size 4096)

def lastCluster (image : Mem UInt8) (start size : ℕ) : ℕ :=
  chain image start ((min size 4096 - 1) / (bootOf image).clusterSize)

def rootBytes (image : Mem UInt8) : Mem UInt8 :=
  clusterBytes image (bootOf image).rootCluster.toNat

def sparseImage (bytes : List (ℕ × UInt8)) : Mem UInt8 := fun i => (bytes.lookup i).getD 0

/-- Sectors of 512 bytes, clusters of one sector, one reserved sector, one table of one
sector, and the root directory in cluster 2. -/
def smallBoot : List (ℕ × UInt8) := [(12, 2), (13, 1), (14, 1), (16, 1), (36, 1), (44, 2)]

def smallEntry (slot : ℕ) (letter start size : UInt8) : List (ℕ × UInt8) :=
  (1024 + 32 * slot, letter) :: (List.range 10).map (fun i => (1024 + 32 * slot + 1 + i, 0x20)) ++
    [(1024 + 32 * slot + 26, start), (1024 + 32 * slot + 28, size)]

/-- A volume whose root directory holds `A`, of one byte in cluster 3, and the empty `B`. -/
def twoFiles : Mem UInt8 :=
  sparseImage (smallBoot ++ [(524, 0xff), (525, 0xff), (526, 0xff), (527, 0x0f)] ++
    smallEntry 0 'A'.toUInt8 3 1 ++ smallEntry 1 'B'.toUInt8 0 0 ++ [(1536, 'x'.toUInt8)])

theorem reachable_start (buffers : Buffer → Mem UInt8) :
    Reachable (Mount.start (init staticTable) buffers).vfs := by
  rw [Mount.vfs_start]
  exact reachable_init staticTable

end Wnu.Fat32
