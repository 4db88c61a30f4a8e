import Wnu.Fat32.Mount

/-! # The stages of a mount

A mount reads the boot sector, makes sure that the mountpoint exists, reads the
root directory and imports its entries. A mount that is not refused before the last
stage is the import from the state after the two reads.
-/

namespace Wnu.Fat32

open Memory Vfs

@[simp] theorem vfs_blockRead (dev : Device) (lba : UInt32) (b : Buffer) (count : ℕ) (m : Mount) :
    (blockRead dev lba b count m).2.vfs = m.vfs := rfl

@[simp] theorem vfs_write (m : Mount) (s : String) : (m.write s).vfs = m.vfs := rfl

@[simp] theorem vfs_touch (m : Mount) (b : Buffer) (is : List ℕ) : (m.touch b is).vfs = m.vfs := rfl

@[simp] theorem buffers_write (m : Mount) (s : String) : (m.write s).buffers = m.buffers := rfl

@[simp] theorem buffers_touch (m : Mount) (b : Buffer) (is : List ℕ) :
    (m.touch b is).buffers = m.buffers := rfl

theorem buffers_blockRead (dev : Device) (lba : UInt32) (b : Buffer) (count : ℕ) (m : Mount) :
    (blockRead dev lba b count m).2.buffers b =
      (dev.read m.reads.length ⟨lba, b, count⟩ (m.buffers b)).2 := by
  simp [blockRead]

theorem buffers_blockRead_of_ne (dev : Device) (lba : UInt32) {b b' : Buffer} (h : b' ≠ b)
    (count : ℕ) (m : Mount) : (blockRead dev lba b count m).2.buffers b' = m.buffers b' :=
  Function.update_of_ne h ..

theorem add_le_of_mem_entryOffsets {size offset : ℕ} (h : offset ∈ entryOffsets size) :
    offset + 32 ≤ size := by
  obtain ⟨i, hi, rfl⟩ := List.mem_map.mp h
  have hlt := List.mem_range.mp hi
  omega

/-! ## Stages -/

variable {dev : Device} {boot : Boot} {mountpoint : List UInt8} {m : Mount}

def Mountable (t : Table) (mountpoint : List UInt8) : Prop :=
  exists' t mountpoint = true ∨ (createDir t mountpoint).1 = true

theorem ensureMountpoint_fst (mountpoint : List UInt8) (m : Mount) :
    (ensureMountpoint mountpoint m).1 = true ↔ Mountable m.vfs mountpoint := by
  unfold ensureMountpoint Mountable
  cases exists' m.vfs mountpoint <;> simp

def bootRead (dev : Device) (m : Mount) : Mount :=
  (blockRead dev 0 .sector 1 m).2.touch .sector
    [11, 12, 13, 14, 15, 16, 36, 37, 38, 39, 44, 45, 46, 47]

def rootRead (dev : Device) (boot : Boot) (mountpoint : List UInt8) (m : Mount) : Mount :=
  (blockRead dev (boot.sectorOfCluster boot.rootCluster) .clusterBuf boot.sectorsPerCluster.toNat
    (ensureMountpoint mountpoint m).2).2

theorem fat32Mount_eq_mountBoot (mountpoint : List UInt8) (hfound : dev.found = true)
    (hok : (dev.read m.reads.length ⟨0, .sector, 1⟩ (m.buffers .sector)).1 = true) :
    fat32Mount dev mountpoint m = mountBoot dev
      (bootOf (dev.read m.reads.length ⟨0, .sector, 1⟩ (m.buffers .sector)).2) mountpoint
      (bootRead dev m) := by
  have hread : (blockRead dev 0 .sector 1 m).1 = true := hok
  simp only [fat32Mount, hfound, hread, buffers_blockRead, Bool.not_true, Bool.false_eq_true,
    if_false]
  rfl

theorem mountBoot_of_accepted (h0 : boot.bytesPerSector ≠ 0) (hM : Mountable m.vfs mountpoint)
    (hs : boot.clusterSize ≤ 8192) :
    mountBoot dev boot mountpoint m =
      if (blockRead dev (boot.sectorOfCluster boot.rootCluster) .clusterBuf
        boot.sectorsPerCluster.toNat (ensureMountpoint mountpoint m).2).1 then
        (true, (importEntries dev boot mountpoint (entryOffsets boot.clusterSize)
          (rootRead dev boot mountpoint m)).write "fat32: mounted\n")
      else (false, (rootRead dev boot mountpoint m).write
        "fat32: failed to read root cluster\n") := by
  have hok := (ensureMountpoint_fst mountpoint m).mpr hM
  unfold mountBoot rootRead
  generalize ensureMountpoint mountpoint m = r at hok ⊢
  obtain ⟨ok, m₁⟩ := r
  obtain rfl : ok = true := hok
  simp only [h0, if_false, Bool.not_true, Bool.false_eq_true, Buffer.size, gt_iff_lt,
    Nat.not_lt.mpr hs]
  cases (blockRead dev _ .clusterBuf _ m₁).1 <;> rfl

end Wnu.Fat32
