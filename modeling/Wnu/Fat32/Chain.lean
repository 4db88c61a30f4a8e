import Wnu.Fat32.Stages

/-! # Reading the clusters of a file

What the loop over the clusters of a file leaves alone, and the values its
arithmetic on machine words computes.
-/

namespace Wnu.Fat32

open Text Memory Runs Vfs

theorem vfs_copyCluster (written copy : ℕ) (m : Mount) : (copyCluster written copy m).vfs = m.vfs :=
  forLoop_invariant (P := fun _ (m' : Mount) => m'.vfs = m.vfs) rfl fun _ _ _ h => h

/-- The clusters of a file are copied one after the other to `file_buf`. -/
theorem buffers_copyCluster (written copy : ℕ) (m : Mount) :
    (copyCluster written copy m).buffers = Function.update m.buffers .fileBuf
      (copyLoop (m.buffers .fileBuf) written (m.buffers .clusterBuf) copy) := by
  refine forLoop_invariant (P := fun i (m' : Mount) =>
    m'.buffers = Function.update m.buffers .fileBuf
      (copyLoop (m.buffers .fileBuf) written (m.buffers .clusterBuf) i)) (by simp [copyLoop]) ?_
  intro i _ m' h
  simp only [Mount.store, Mount.touch, h, Function.update_idem, Function.update_self,
    Function.update_of_ne (show Buffer.clusterBuf ≠ .fileBuf by decide), copyLoop]

theorem frame_readChain (dev : Device) (boot : Boot) (fuel : ℕ) (cluster : UInt32)
    (bytesLeft written : ℕ) (m : Mount) :
    (readChain dev boot fuel cluster bytesLeft written m).2.vfs = m.vfs ∧
      (readChain dev boot fuel cluster bytesLeft written m).2.buffers .name = m.buffers .name := by
  induction fuel generalizing cluster bytesLeft written m with
  | zero => exact ⟨rfl, rfl⟩
  | succ fuel ih =>
    have hread (lba : UInt32) (b : Buffer) (hb : Buffer.name ≠ b) (count : ℕ) (m : Mount) :
        (blockRead dev lba b count m).2.buffers .name = m.buffers .name :=
      buffers_blockRead_of_ne dev lba hb count m
    unfold readChain
    dsimp only
    split_ifs <;>
      simp [fatEntry, ih, vfs_copyCluster, buffers_copyCluster, hread]

theorem readChain_of_done (dev : Device) (boot : Boot) (fuel : ℕ) (cluster : UInt32)
    {bytesLeft written : ℕ} (h : ¬ (bytesLeft > 0 ∧ written < Buffer.fileBuf.size)) (m : Mount) :
    readChain dev boot fuel cluster bytesLeft written m = (written, m) := by
  cases fuel with
  | zero => rfl
  | succ fuel => rw [readChain, if_neg h]

theorem copySize_eq_min (boot : Boot) (bytesLeft written : ℕ) :
    copySize boot bytesLeft written =
      min boot.clusterSize (min bytesLeft (Buffer.fileBuf.size - written)) := by
  simp only [copySize]
  split_ifs <;> omega

theorem copySize_pos {boot : Boot} (h0 : 0 < boot.clusterSize) {bytesLeft written : ℕ}
    (h : bytesLeft > 0 ∧ written < Buffer.fileBuf.size) : 0 < copySize boot bytesLeft written := by
  rw [copySize_eq_min]
  omega

/-- Every round writes a byte, so the loop ends within as many rounds as `file_buf` has room
for bytes, and a larger bound changes nothing. -/
theorem readChain_fuel_irrelevant (dev : Device) {boot : Boot} (h0 : 0 < boot.clusterSize)
    {fuel fuel' written : ℕ} (hf : Buffer.fileBuf.size ≤ written + fuel)
    (hf' : Buffer.fileBuf.size ≤ written + fuel') (cluster : UInt32) (bytesLeft : ℕ) (m : Mount) :
    readChain dev boot fuel cluster bytesLeft written m =
      readChain dev boot fuel' cluster bytesLeft written m := by
  induction fuel generalizing fuel' written cluster bytesLeft m with
  | zero =>
    have hdone : ¬ (bytesLeft > 0 ∧ written < Buffer.fileBuf.size) := by omega
    rw [readChain_of_done dev boot 0 cluster hdone, readChain_of_done dev boot fuel' cluster hdone]
  | succ fuel ih =>
    by_cases h : bytesLeft > 0 ∧ written < Buffer.fileBuf.size
    · obtain ⟨fuel', rfl⟩ : ∃ n, fuel' = n + 1 := ⟨fuel' - 1, by omega⟩
      have hcopy := copySize_pos h0 h
      have hnext (entry : UInt32) (left : ℕ) (m : Mount) :
          readChain dev boot fuel entry left (written + copySize boot bytesLeft written) m =
            readChain dev boot fuel' entry left (written + copySize boot bytesLeft written) m :=
        ih (by omega) (by omega) entry left m
      simp only [readChain, hnext]
    · rw [readChain_of_done dev boot _ cluster h, readChain_of_done dev boot _ cluster h]

/-! ## Places in the table -/

theorem Boot.toNat_fatOffset (cluster : UInt32) :
    (fatOffset cluster).toNat = 4 * cluster.toNat := by
  have h := cluster.toNat_lt
  simp only [fatOffset, UInt64.toNat_mul, UInt32.toNat_toUInt64, UInt64.reduceToNat]
  omega

theorem Boot.toNat_fatSectorOffset (boot : Boot) (h0 : boot.bytesPerSector ≠ 0) (cluster : UInt32) :
    (boot.fatSectorOffset cluster).toNat = 4 * cluster.toNat % boot.bytesPerSector.toNat := by
  have hb := boot.bytesPerSector.toNat_lt
  have hlt : 4 * cluster.toNat % boot.bytesPerSector.toNat < boot.bytesPerSector.toNat :=
    Nat.mod_lt _ (Nat.pos_of_ne_zero fun h => h0 (UInt16.toNat_inj.mp h))
  simp only [fatSectorOffset, UInt64.toNat_toUInt32, UInt64.toNat_mod, toNat_fatOffset,
    UInt16.toNat_toUInt64]
  exact Nat.mod_eq_of_lt (by omega)

/-- An offset into a sector of the table leaves room for an entry, unless sectors have 4095
bytes. -/
theorem Boot.fatSectorOffset_lt (boot : Boot) (h0 : boot.bytesPerSector ≠ 0)
    (hmax : boot.bytesPerSector.toNat ≤ 4096) (h : boot.bytesPerSector.toNat ≠ 4095)
    (cluster : UInt32) : (boot.fatSectorOffset cluster).toNat + 3 < 4096 := by
  have hpos : 0 < boot.bytesPerSector.toNat :=
    Nat.pos_of_ne_zero fun h => h0 (UInt16.toNat_inj.mp h)
  rw [boot.toNat_fatSectorOffset h0]
  have hlt := Nat.mod_lt (4 * cluster.toNat) hpos
  -- the offset is even in sectors of 4094 bytes, and divisible by 4 in sectors of 4096
  by_cases h4094 : boot.bytesPerSector.toNat = 4094
  · rw [h4094] at hlt ⊢
    omega
  by_cases h4096 : boot.bytesPerSector.toNat = 4096
  · rw [h4096] at hlt ⊢
    omega
  · omega

end Wnu.Fat32
