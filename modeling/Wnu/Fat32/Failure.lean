import Wnu.Fat32.Stages
import Wnu.Fat32.Volume
import Wnu.Vfs.Invariant

/-! # Failed mounts

A mount can fail at six places. The first three come before the file system is
changed, and the fourth is the failure to change it. At the last two the mountpoint
has already been created, if it did not exist, and it is not removed.
-/

namespace Wnu.Fat32

open Text Memory Vfs

variable {dev : Device} {boot : Boot} {mountpoint : List UInt8} {m : Mount}

def diskBoot (dev : Device) (m : Mount) : Boot :=
  bootOf (dev.read m.reads.length ⟨0, .sector, 1⟩ (m.buffers .sector)).2

/-- The answer of the device to the read of the root directory, the read number `n`. -/
def rootAnswer (dev : Device) (boot : Boot) (n : ℕ) (m : Mount) : Bool :=
  (dev.read n ⟨boot.sectorOfCluster boot.rootCluster, .clusterBuf,
    boot.sectorsPerCluster.toNat⟩ (m.buffers .clusterBuf)).1

/-- The mountpoint has to be created, and the mount is refused afterwards. -/
structure Strands (dev : Device) (mountpoint : List UInt8) (m : Mount) : Prop where
  found : dev.found = true
  booted : (dev.read m.reads.length ⟨0, .sector, 1⟩ (m.buffers .sector)).1 = true
  sectorSize : (diskBoot dev m).bytesPerSector ≠ 0
  creatable : Creatable m.vfs (text mountpoint)
  refused : 8192 < (diskBoot dev m).clusterSize ∨
    rootAnswer dev (diskBoot dev m) (m.reads.length + 1) m = false

/-- A mount that has failed has not changed the file system. -/
def Traceless (t : Table) (r : Bool × Mount) : Prop := r.1 = false → r.2.vfs = t

/-! ## The mountpoint -/

theorem ensureMountpoint_cases (mountpoint : List UInt8) (m : Mount) :
    (¬ Creatable m.vfs (text mountpoint) ∧ (ensureMountpoint mountpoint m).2 = m) ∨
    (Creatable m.vfs (text mountpoint) ∧ ∃ i, (m.vfs.nodes i).used = false ∧
      ensureMountpoint mountpoint m =
        (true, { m with vfs := m.vfs.store i .dir mountpoint })) := by
  unfold ensureMountpoint exists'
  cases hf : findNode m.vfs mountpoint with
  | some i =>
    refine .inl ⟨fun c => ?_, rfl⟩
    have habsent := c.absent
    rw [node_eq_some_of_find hf] at habsent
    cases habsent
  | none =>
    rcases createNode_cases .dir m.vfs mountpoint with ⟨hc, he⟩ | ⟨c, i, hi, he⟩
    · refine .inl ⟨hc, ?_⟩
      simp only [Option.isSome_none, Bool.not_false, if_true]
      rw [createDir, he]
    · refine .inr ⟨c, i, Slots.used_eq_false_of_free hi, ?_⟩
      simp only [Option.isSome_none, Bool.not_false, if_true]
      rw [createDir, he]

theorem store_ne {t : Table} {i : Fin maxNodes} (hi : (t.nodes i).used = false) (type : NodeType)
    (path : List UInt8) : t.store i type path ≠ t := by
  intro h
  have hused : ((t.store i type path).nodes i).used = true := by
    simp only [Table.store, Function.update_self]
    rfl
  rw [h, hi] at hused
  cases hused

/-! ## The exits -/

/-- At every exit with a failure the file system is as it was, or as it was when the
mountpoint had been seen to. -/
theorem vfs_mountBoot_of_failed (h : (mountBoot dev boot mountpoint m).1 = false) :
    boot.bytesPerSector = 0 ∧ (mountBoot dev boot mountpoint m).2.vfs = m.vfs ∨
      boot.bytesPerSector ≠ 0 ∧
        (mountBoot dev boot mountpoint m).2.vfs = (ensureMountpoint mountpoint m).2.vfs := by
  unfold mountBoot at h ⊢
  by_cases h0 : boot.bytesPerSector = 0
  · rw [if_pos h0]
    exact .inl ⟨h0, rfl⟩
  refine .inr ⟨h0, ?_⟩
  rw [if_neg h0] at h ⊢
  generalize ensureMountpoint mountpoint m = r at h ⊢
  obtain ⟨ok, m₁⟩ := r
  cases ok with
  | false => rfl
  | true =>
    simp only [Bool.not_true, Bool.false_eq_true, if_false] at h ⊢
    split at h
    · next hs => rw [if_pos hs, vfs_write]
    · next hs =>
      rw [if_neg hs]
      split at h
      · next hf => rw [if_pos hf, vfs_write, vfs_blockRead]
      · cases h

/-- When the mountpoint exists, the mount fails for a large cluster or a failing read. -/
theorem mountBoot_fails_iff (dev : Device) (h0 : boot.bytesPerSector ≠ 0)
    (mountpoint : List UInt8) (m : Mount)
    (hens : (ensureMountpoint mountpoint m).1 = true) :
    (mountBoot dev boot mountpoint m).1 = false ↔ 8192 < boot.clusterSize ∨
      rootAnswer dev boot (ensureMountpoint mountpoint m).2.reads.length
        (ensureMountpoint mountpoint m).2 = false := by
  unfold mountBoot
  generalize ensureMountpoint mountpoint m = r at hens ⊢
  obtain ⟨ok, m₁⟩ := r
  obtain rfl : ok = true := hens
  have hroot : rootAnswer dev boot m₁.reads.length m₁ =
      (blockRead dev (boot.sectorOfCluster boot.rootCluster) .clusterBuf
        boot.sectorsPerCluster.toNat m₁).1 := rfl
  simp only [h0, if_false, Bool.not_true, Bool.false_eq_true, Buffer.size, gt_iff_lt, hroot]
  by_cases hs : 8192 < boot.clusterSize
  · simp only [hs, if_true, true_or]
  · cases (blockRead dev _ .clusterBuf _ m₁).1 <;> simp [hs]

theorem mountBoot_traceless_iff (dev : Device) (boot : Boot) (mountpoint : List UInt8)
    (m : Mount) :
    Traceless m.vfs (mountBoot dev boot mountpoint m) ↔
      ¬ (boot.bytesPerSector ≠ 0 ∧ Creatable m.vfs (text mountpoint) ∧
        (8192 < boot.clusterSize ∨ rootAnswer dev boot m.reads.length m = false)) := by
  rcases ensureMountpoint_cases mountpoint m with ⟨hc, hm⟩ | ⟨c, i, hi, hm⟩
  · refine iff_of_true (fun h => ?_) fun h => hc h.2.1
    rcases vfs_mountBoot_of_failed h with ⟨-, hv⟩ | ⟨-, hv⟩
    · exact hv
    · rw [hv, hm]
  · have hfails (h0 : boot.bytesPerSector ≠ 0) :=
      mountBoot_fails_iff dev h0 mountpoint m
    rw [hm] at hfails
    constructor
    · rintro h ⟨h0, -, hr⟩
      have hfail := (hfails h0 rfl).mpr hr
      rcases vfs_mountBoot_of_failed hfail with ⟨hz, -⟩ | ⟨-, hv⟩
      · exact h0 hz
      · have hsame := h hfail
        rw [hv, hm] at hsame
        exact store_ne hi .dir mountpoint hsame
    · intro h hfail
      rcases vfs_mountBoot_of_failed hfail with ⟨-, hv⟩ | ⟨h0, -⟩
      · exact hv
      · exact absurd ⟨h0, c, (hfails h0 rfl).mp hfail⟩ h

/-- On every device, from every state of the file system and for every mountpoint: a failed
mount has left the file system as it was, unless it is refused after the mountpoint has been
created. -/
theorem fat32Mount_traceless_iff (dev : Device) (mountpoint : List UInt8) (m : Mount) :
    Traceless m.vfs (fat32Mount dev mountpoint m) ↔ ¬ Strands dev mountpoint m := by
  by_cases hread : dev.found = true ∧
      (dev.read m.reads.length ⟨0, .sector, 1⟩ (m.buffers .sector)).1 = true
  · obtain ⟨hfound, hok⟩ := hread
    have hroot : rootAnswer dev (diskBoot dev m) (bootRead dev m).reads.length (bootRead dev m) =
        rootAnswer dev (diskBoot dev m) (m.reads.length + 1) m := by
      simp only [rootAnswer, bootRead, Mount.touch, blockRead, List.length_cons,
        Function.update_of_ne (show Buffer.clusterBuf ≠ .sector by decide)]
    have hiff := mountBoot_traceless_iff dev (diskBoot dev m) mountpoint (bootRead dev m)
    rw [hroot] at hiff
    rw [fat32Mount_eq_mountBoot mountpoint hfound hok]
    refine hiff.trans (not_congr ⟨?_, ?_⟩)
    · rintro ⟨h0, c, hr⟩
      exact ⟨hfound, hok, h0, c, hr⟩
    · intro h
      exact ⟨h.sectorSize, h.creatable, h.refused⟩
  · refine iff_of_true ?_ fun h => hread ⟨h.found, h.booted⟩
    intro _
    unfold fat32Mount
    by_cases hfound : dev.found = true
    · have hfail : (blockRead dev 0 .sector 1 m).1 = false :=
        Bool.eq_false_iff.mpr fun hok => hread ⟨hfound, hok⟩
      simp only [hfound, hfail, Bool.not_true, Bool.not_false, Bool.false_eq_true, if_false,
        if_true, vfs_write, vfs_blockRead]
    · simp only [Bool.eq_false_iff.mpr hfound, Bool.not_false, if_true, vfs_write]

def largeClusters : Mem UInt8 := sparseImage [(12, 2), (13, 32), (14, 1), (44, 2)]

/-- The mount refuses the clusters and returns 0, but `/disk` has become a directory. -/
theorem not_traceless_largeClusters :
    let m := Mount.start (init staticTable) fun _ _ => 0
    Reachable m.vfs ∧
      ¬ Traceless m.vfs (fat32Mount (imageDevice largeClusters) (ascii "/disk") m) := by
  intro m
  have h : Reachable m.vfs := reachable_start fun _ _ => 0
  have hfail : (fat32Mount (imageDevice largeClusters) (ascii "/disk") m).1 = false := by
    decide +kernel
  have hdir : (fat32Mount (imageDevice largeClusters) (ascii "/disk") m).2.vfs.node
      (ascii "/disk") ≠ none := by
    decide +kernel
  have hnone : m.vfs.node (ascii "/disk") = none := by
    decide +kernel
  refine ⟨h, fun ht => hdir ?_⟩
  rw [ht hfail]
  exact hnone

end Wnu.Fat32
