import Wnu.Fat32.Chain
import Wnu.Fat32.Volume

/-! # Files of a volume

On a volume the loop over the clusters of a file computes sector numbers without a
wrap and finds the entries of the table. It copies the start of the chain and leaves
the last cluster of what it copied in `cluster_buf`.
-/

namespace Wnu.Fat32

open Memory

theorem Boot.toNat_firstDataSector {boot : Boot}
    (h : boot.reservedSectors.toNat + boot.numFats.toNat * boot.fatSize.toNat < 2 ^ 32) :
    boot.firstDataSector.toNat =
      boot.reservedSectors.toNat + boot.numFats.toNat * boot.fatSize.toNat := by
  have hmul : boot.numFats.toNat * boot.fatSize.toNat < 2 ^ 32 := by omega
  simp only [firstDataSector, UInt32.toNat_add, UInt32.toNat_mul, UInt16.toNat_toUInt32,
    UInt8.toNat_toUInt32]
  rw [Nat.mod_eq_of_lt hmul, Nat.mod_eq_of_lt h]

theorem toNat_sub_two {cluster : UInt32} (h2 : 2 ≤ cluster.toNat) :
    (cluster - 2).toNat = cluster.toNat - 2 := by
  have hle : (2 : UInt32) ≤ cluster := UInt32.le_iff_toNat_le.mpr h2
  rw [UInt32.toNat_sub_of_le _ _ hle]
  rfl

theorem Boot.toNat_sectorOfCluster {boot : Boot} {cluster : UInt32} (h2 : 2 ≤ cluster.toNat)
    (h : boot.dataSector cluster.toNat < 2 ^ 32) :
    (boot.sectorOfCluster cluster).toNat = boot.dataSector cluster.toNat := by
  unfold dataSector at h ⊢
  have hsub := toNat_sub_two h2
  have hmul : (cluster.toNat - 2) * boot.sectorsPerCluster.toNat < 2 ^ 32 := by omega
  simp only [sectorOfCluster, UInt32.toNat_add, UInt32.toNat_mul, UInt8.toNat_toUInt32, hsub]
  rw [toNat_firstDataSector (by omega), Nat.mod_eq_of_lt hmul, Nat.mod_eq_of_lt h]

theorem Boot.toNat_fatSector {boot : Boot} (hbps : boot.bytesPerSector = 512) (cluster : UInt32) :
    (boot.fatSector cluster).toNat = boot.reservedSectors.toNat + 4 * cluster.toNat / 512 := by
  have hr := boot.reservedSectors.toNat_lt
  have hc := cluster.toNat_lt
  simp only [fatSector, firstFatSector, hbps, UInt32.toNat_add, UInt16.toNat_toUInt32,
    UInt64.toNat_toUInt32, UInt64.toNat_div, toNat_fatOffset, UInt16.toNat_toUInt64,
    UInt16.reduceToNat]
  omega

/-! ## Reads from an image -/

@[simp] theorem blockRead_image_fst (image : Mem UInt8) (lba : UInt32) (b : Buffer) (count : ℕ)
    (m : Mount) : (blockRead (imageDevice image) lba b count m).1 = true := rfl

theorem blockRead_image (image : Mem UInt8) (lba : UInt32) (b : Buffer) {count : ℕ} (m : Mount)
    {j : ℕ} (hj : j < 512 * count) :
    (blockRead (imageDevice image) lba b count m).2.buffers b j = image (512 * lba.toNat + j) := by
  rw [buffers_blockRead]
  exact (copyLoop_apply ..).trans (by
    rw [if_pos (by dsimp only; omega), Nat.sub_zero])

theorem bootOf_congr {p q : Mem UInt8} (h : ∀ j < 48, p j = q j) : bootOf p = bootOf q := by
  simp [bootOf, readU16, readU32, h]

variable {image : Mem UInt8}

theorem bootOf_image (image : Mem UInt8) (n : ℕ) (bytes : Mem UInt8) :
    bootOf ((imageDevice image).read n ⟨0, .sector, 1⟩ bytes).2 = bootOf image :=
  bootOf_congr fun j hj => by
    apply (copyLoop_apply ..).trans
    rw [if_pos (by dsimp only; omega)]
    exact congrArg image (by simp)

theorem clusterSize_eq (hbps : (bootOf image).bytesPerSector = 512) :
    (bootOf image).clusterSize = 512 * (bootOf image).sectorsPerCluster.toNat := by
  rw [Boot.clusterSize, hbps]
  rfl

/-- Reading a cluster leaves its bytes in `cluster_buf`. -/
theorem clusterBuf_of_two_le (hbps : (bootOf image).bytesPerSector = 512) {cluster : UInt32}
    (h2 : 2 ≤ cluster.toNat) (hsector : (bootOf image).dataSector cluster.toNat < 2 ^ 32)
    (m : Mount) {j : ℕ} (hj : j < (bootOf image).clusterSize) :
    (blockRead (imageDevice image) ((bootOf image).sectorOfCluster cluster) .clusterBuf
      (bootOf image).sectorsPerCluster.toNat m).2.buffers .clusterBuf j =
      clusterBytes image cluster.toNat j := by
  rw [clusterSize_eq hbps] at hj
  rw [blockRead_image _ _ _ _ hj, Boot.toNat_sectorOfCluster h2 hsector, clusterBytes]

theorem clusterBuf_blockRead (hbps : (bootOf image).bytesPerSector = 512) {cluster : UInt32}
    (h : InVolume image cluster.toNat) (m : Mount) {j : ℕ} (hj : j < (bootOf image).clusterSize) :
    (blockRead (imageDevice image) ((bootOf image).sectorOfCluster cluster) .clusterBuf
      (bootOf image).sectorsPerCluster.toNat m).2.buffers .clusterBuf j =
      clusterBytes image cluster.toNat j := by
  have hle := h.sector_le
  have hsize := clusterSize_eq hbps
  exact clusterBuf_of_two_le hbps h.two_le (by omega) m hj

theorem fatEntry_blockRead (hbps : (bootOf image).bytesPerSector = 512) (cluster : UInt32)
    (m : Mount) :
    (fatEntry ((bootOf image).fatSectorOffset cluster).toNat
      (blockRead (imageDevice image) ((bootOf image).fatSector cluster) .fatSectorBuf 1 m).2).1 &&&
      0x0fffffff = tableEntry image cluster.toNat := by
  have hne : (bootOf image).bytesPerSector ≠ 0 := fun h0 => by
    rw [h0] at hbps
    exact absurd hbps (by decide)
  have hoff := (bootOf image).toNat_fatSectorOffset hne cluster
  rw [hbps] at hoff
  have h512 : (512 : UInt16).toNat = 512 := rfl
  rw [h512] at hoff
  have hbyte (k : ℕ) (hk : k < 4) :
      (blockRead (imageDevice image) ((bootOf image).fatSector cluster) .fatSectorBuf 1 m).2.buffers
        .fatSectorBuf (((bootOf image).fatSectorOffset cluster).toNat + k) =
      image (512 * (bootOf image).reservedSectors.toNat + 4 * cluster.toNat + k) := by
    rw [blockRead_image _ _ _ _ (by omega), Boot.toNat_fatSector hbps]
    congr 1
    omega
  have h0 := hbyte 0 (by decide)
  rw [Nat.add_zero, Nat.add_zero] at h0
  simp only [fatEntry, readU32, tableEntry, h0, hbyte 1 (by decide), hbyte 2 (by decide),
    hbyte 3 (by decide)]

/-! ## The clusters of a file -/

theorem copySize_eq (boot : Boot) (size written : ℕ) :
    copySize boot (size - written) written = min boot.clusterSize (min size 4096 - written) := by
  rw [copySize_eq_min, Buffer.size]
  omega

theorem window_chainBytes (start i : ℕ) {n : ℕ} (hn : n ≤ (bootOf image).clusterSize) :
    window (fun j => chainBytes image start (i * (bootOf image).clusterSize + j)) n =
      window (clusterBytes image (chain image start i)) n := by
  apply window_congr
  intro j hj
  have hlt : j < (bootOf image).clusterSize := by omega
  rw [chainBytes, Nat.mul_comm, Nat.mul_add_div (by omega), Nat.div_eq_of_lt hlt, Nat.add_zero,
    Nat.mul_add_mod, Nat.mod_eq_of_lt hlt]

theorem window_copyCluster (written : ℕ) {n : ℕ} {cluster : ℕ} {m : Mount}
    (hbuf : ∀ j < n, m.buffers .clusterBuf j = clusterBytes image cluster j) :
    window ((copyCluster written n m).buffers .fileBuf) (written + n) =
      window (m.buffers .fileBuf) written ++ window (clusterBytes image cluster) n := by
  rw [buffers_copyCluster, Function.update_self, window_copyLoop]
  congr 1
  exact window_congr hbuf

/-- A round of the loop appends its part of a cluster, leaves the cluster in `cluster_buf` and
goes on with the entry of the table. -/
theorem readChain_round (hbps : (bootOf image).bytesPerSector = 512) {cluster : UInt32}
    (h2 : 2 ≤ cluster.toNat) (hsector : (bootOf image).dataSector cluster.toNat < 2 ^ 32)
    {bytesLeft written : ℕ} (hroom : bytesLeft > 0 ∧ written < 4096) (fuel : ℕ) (m : Mount) :
    let n := copySize (bootOf image) bytesLeft written
    ∃ m', readChain (imageDevice image) (bootOf image) (fuel + 1) cluster bytesLeft written m =
        (if EndsChain (tableEntry image cluster.toNat) then (written + n, m')
        else readChain (imageDevice image) (bootOf image) fuel (tableEntry image cluster.toNat)
          (bytesLeft - n) (written + n) m') ∧
      window (m'.buffers .fileBuf) (written + n) =
        window (m.buffers .fileBuf) written ++ window (clusterBytes image cluster.toNat) n ∧
      ∀ j < (bootOf image).clusterSize,
        m'.buffers .clusterBuf j = clusterBytes image cluster.toNat j := by
  intro n
  have hn : n ≤ (bootOf image).clusterSize :=
    (copySize_eq_min ..).trans_le (Nat.min_le_left ..)
  have hbuf (j : ℕ) (hj : j < (bootOf image).clusterSize) :=
    clusterBuf_of_two_le hbps h2 hsector m hj
  have hwin := window_copyCluster written fun j hj => hbuf j (Nat.lt_of_lt_of_le hj hn)
  rw [buffers_blockRead_of_ne _ _ (by decide)] at hwin
  have hentry := fatEntry_blockRead hbps cluster
  rw [readChain, if_pos (by rw [Buffer.size]; exact hroom)]
  simp only [blockRead_image_fst, Bool.not_true, Bool.false_eq_true, if_false, hentry]
  generalize hm₁ : copyCluster written n _ = m₁ at hwin ⊢
  have hcluster (j : ℕ) (hj : j < (bootOf image).clusterSize) :
      m₁.buffers .clusterBuf j = clusterBytes image cluster.toNat j := by
    rw [← hm₁, buffers_copyCluster, Function.update_of_ne (by decide), hbuf j hj]
  -- the read of the table leaves the two arrays alone
  generalize hm₂ : (fatEntry ((bootOf image).fatSectorOffset cluster).toNat (blockRead
    (imageDevice image) ((bootOf image).fatSector cluster) .fatSectorBuf 1 m₁).2).2 = m₂
  have hne {b : Buffer} (hb : b ≠ .fatSectorBuf) : m₂.buffers b = m₁.buffers b := by
    rw [← hm₂, fatEntry, buffers_touch]
    exact buffers_blockRead_of_ne _ _ hb _ _
  rw [← hne (by decide)] at hwin hcluster
  refine ⟨m₂, ?_, hwin, hcluster⟩
  by_cases hend : EndsChain (tableEntry image cluster.toNat)
  · rw [if_pos hend]
    rcases hend with hend | hend
    · rw [if_pos hend]
    · rw [hend]
      rfl
  · rw [if_neg hend, if_neg fun h => hend (.inl h), if_neg fun h => hend (.inr h)]

theorem readChain_image (hbps : (bootOf image).bytesPerSector = 512)
    (hpos : 0 < (bootOf image).clusterSize) (start size : ℕ)
    (hvol : ∀ i, i * (bootOf image).clusterSize < min size 4096 →
      InVolume image (chain image start i))
    (fuel i : ℕ) {cluster : UInt32} {m : Mount} (hcl : cluster.toNat = chain image start i)
    (hi : i * (bootOf image).clusterSize < min size 4096)
    (hfuel : min size 4096 ≤ i * (bootOf image).clusterSize + fuel)
    (hm : window (m.buffers .fileBuf) (i * (bootOf image).clusterSize) =
      window (chainBytes image start) (i * (bootOf image).clusterSize)) :
    let r := readChain (imageDevice image) (bootOf image) fuel cluster
      (size - i * (bootOf image).clusterSize) (i * (bootOf image).clusterSize) m
    r.1 = min size 4096 ∧ window (r.2.buffers .fileBuf) r.1 = fileContents image start size ∧
      ∀ j < (bootOf image).clusterSize,
        r.2.buffers .clusterBuf j = clusterBytes image (lastCluster image start size) j := by
  induction fuel generalizing i cluster m with
  | zero => omega
  | succ fuel ih =>
    have hin : InVolume image cluster.toNat := hcl ▸ hvol i hi
    have hroom : size - i * (bootOf image).clusterSize > 0 ∧
        i * (bootOf image).clusterSize < Buffer.fileBuf.size := by
      simp only [Buffer.size]
      omega
    have hle := hin.sector_le
    have hsize := clusterSize_eq hbps
    obtain ⟨m', hround, hwin, hlastBuf⟩ :=
      readChain_round hbps hin.two_le (by omega) hroom fuel m
    have hmul : (i + 1) * (bootOf image).clusterSize =
      i * (bootOf image).clusterSize + (bootOf image).clusterSize := Nat.succ_mul _ _
    rw [copySize_eq] at hround hwin
    rw [hm, hcl, ← window_chainBytes start i (Nat.min_le_left ..), ← window_add] at hwin
    rw [hcl] at hlastBuf
    rw [hround, Nat.sub_sub]
    by_cases hlast : min size 4096 - i * (bootOf image).clusterSize ≤ (bootOf image).clusterSize
    · -- the last round, whatever the table says
      have htotal : i * (bootOf image).clusterSize + min (bootOf image).clusterSize
          (min size 4096 - i * (bootOf image).clusterSize) = min size 4096 := by omega
      rw [htotal] at hwin ⊢
      rw [readChain_of_done _ _ _ _ (by simp only [Buffer.size]; omega)]
      simp only [ite_self]
      refine ⟨trivial, hwin, ?_⟩
      have hidx : (min size 4096 - 1) / (bootOf image).clusterSize = i :=
        Nat.div_eq_of_lt_le (by omega) (by omega)
      rw [lastCluster, hidx]
      exact hlastBuf
    · have hnext : i * (bootOf image).clusterSize + min (bootOf image).clusterSize
          (min size 4096 - i * (bootOf image).clusterSize) =
          (i + 1) * (bootOf image).clusterSize := by omega
      have hlt : (i + 1) * (bootOf image).clusterSize < min size 4096 := by omega
      have hin' := hvol (i + 1) hlt
      have hchain : (tableEntry image cluster.toNat).toNat = chain image start (i + 1) := by
        rw [hcl, chain]
      rw [← hchain] at hin'
      have hend : ¬ EndsChain (tableEntry image cluster.toNat) := by
        rintro (hend | hfree)
        · rw [ge_iff_le, UInt32.le_iff_toNat_le] at hend
          exact Nat.not_le.mpr hin'.lt_end hend
        · have h2 := hin'.two_le
          rw [hfree] at h2
          exact absurd h2 (by decide)
      rw [hnext] at hwin ⊢
      rw [if_neg hend]
      exact ih (i + 1) hchain hlt (by omega) hwin

end Wnu.Fat32
