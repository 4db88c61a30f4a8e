import Wnu.Fat32.Files
import Wnu.Fat32.Paths

/-! # The contents of a chain

A file is the bytes of the clusters of its chain, one after the other. The loop over
the clusters reads the start of it, as far as `file_buf` has room, whatever the chain
looks like: it may end early, come back to a cluster or never end.
-/

namespace Wnu.Fat32

open Memory Text Vfs

variable {image : Mem UInt8}

/-- The first clusters of the chain that starts at a cluster, at most the given number. -/
def clustersFrom (image : Mem UInt8) : ℕ → ℕ → List ℕ
  | 0, _ => []
  | k + 1, s =>
    s :: if EndsChain (tableEntry image s) then []
      else clustersFrom image k (tableEntry image s).toNat

/-- The bytes of the first clusters of a chain. -/
def chainContents (image : Mem UInt8) (k s : ℕ) : List UInt8 :=
  (clustersFrom image k s).flatMap fun cluster =>
    window (clusterBytes image cluster) (bootOf image).clusterSize

/-- A cluster of the chain that starts before the byte `n` of its contents. -/
def Visited (image : Mem UInt8) (s n cluster : ℕ) : Prop :=
  ∃ i, i * (bootOf image).clusterSize < n ∧ cluster ∈ clustersFrom image (i + 1) s

theorem clustersFrom_of_next {s : ℕ} (h : ¬ EndsChain (tableEntry image s)) (k : ℕ) :
    clustersFrom image (k + 1) s =
      s :: clustersFrom image k (tableEntry image s).toNat := by
  rw [clustersFrom, if_neg h]

theorem visited_start {s n : ℕ} (hn : 0 < n) : Visited image s n s :=
  ⟨0, by rwa [Nat.zero_mul], by rw [clustersFrom]; exact List.mem_cons_self⟩

theorem Visited.next {s n cluster : ℕ} (h : ¬ EndsChain (tableEntry image s))
    (hv : Visited image (tableEntry image s).toNat (n - (bootOf image).clusterSize) cluster) :
    Visited image s n cluster := by
  obtain ⟨i, hi, hmem⟩ := hv
  refine ⟨i + 1, ?_, ?_⟩
  · rw [Nat.succ_mul]
    omega
  · rw [clustersFrom_of_next h]
    exact List.mem_cons_of_mem _ hmem

theorem take_chainContents (k s n : ℕ) :
    (chainContents image (k + 1) s).take n =
      window (clusterBytes image s) (min (bootOf image).clusterSize n) ++
        if EndsChain (tableEntry image s) then []
        else (chainContents image k (tableEntry image s).toNat).take
          (n - (bootOf image).clusterSize) := by
  unfold chainContents
  rw [clustersFrom, List.flatMap_cons, List.take_append, take_window, length_window, Nat.min_comm]
  congr 1
  split
  · rw [List.flatMap_nil, List.take_nil]
  · rfl

/-- The loop appends the contents of the chain, as far as the file and `file_buf` go. -/
theorem window_readChain (hbps : (bootOf image).bytesPerSector = 512)
    (hpos : 0 < (bootOf image).clusterSize) {fuel k bytesLeft written n : ℕ}
    (hn : n = min bytesLeft (4096 - written)) (hfuel : n ≤ fuel)
    (hk : n ≤ k * (bootOf image).clusterSize) {cluster : UInt32}
    (hvis : ∀ x, Visited image cluster.toNat n x →
      2 ≤ x ∧ (bootOf image).dataSector x < 2 ^ 32) (m : Mount) :
    let r := readChain (imageDevice image) (bootOf image) fuel cluster bytesLeft written m
    window (r.2.buffers .fileBuf) r.1 =
      window (m.buffers .fileBuf) written ++ (chainContents image k cluster.toNat).take n := by
  induction fuel generalizing k bytesLeft written n cluster m with
  | zero =>
    obtain rfl : n = 0 := Nat.le_zero.mp hfuel
    rw [List.take_zero, List.append_nil]
    rfl
  | succ fuel ih =>
    by_cases hroom : bytesLeft > 0 ∧ written < Buffer.fileBuf.size
    swap
    · have h0 : n = 0 := by
        rw [Buffer.size] at hroom
        omega
      rw [readChain_of_done _ _ _ _ hroom, h0, List.take_zero, List.append_nil]
    rw [Buffer.size] at hroom
    have hn0 : 0 < n := by omega
    obtain ⟨k, rfl⟩ : ∃ j, k = j + 1 := by
      cases k with
      | zero => omega
      | succ j => exact ⟨j, rfl⟩
    obtain ⟨h2, hsector⟩ := hvis _ (visited_start hn0)
    have hcopy : copySize (bootOf image) bytesLeft written = min (bootOf image).clusterSize n := by
      rw [copySize_eq_min, hn]
      rfl
    have hle : min (bootOf image).clusterSize n ≤ (bootOf image).clusterSize := Nat.min_le_left ..
    obtain ⟨m', hround, hwin, -⟩ := readChain_round hbps h2 hsector hroom fuel m
    rw [hcopy] at hround hwin
    rw [hround, take_chainContents, ← List.append_assoc, ← hwin]
    by_cases hend : EndsChain (tableEntry image cluster.toNat)
    · rw [if_pos hend, if_pos hend, List.append_nil]
    · rw [if_neg hend, if_neg hend]
      apply ih
      · omega
      · omega
      · rw [Nat.succ_mul] at hk
        omega
      · intro x hx
        exact hvis x (hx.next hend)

/-- In every round of the loop over the directory that comes to a file of `n` bytes whose
chain starts at `s`, the bytes passed to the file system are the first `min n 4096` bytes of the
clusters of the chain. -/
theorem importEntry_reference (hbps : (bootOf image).bytesPerSector = 512) {offset : ℕ}
    (ho : offset ∈ entryOffsets (bootOf image).clusterSize) (mountpoint : List UInt8) (m : Mount)
    (hk : entryKind (m.buffers .clusterBuf) offset = .file) {s n : UInt32}
    (hs : startCluster (m.buffers .clusterBuf) offset = s)
    (hn : filesize (m.buffers .clusterBuf) offset = n)
    (hvis : ∀ x, Visited image s.toNat (min n.toNat 4096) x →
      2 ≤ x ∧ (bootOf image).dataSector x < 2 ^ 32) :
    let r := readChain (imageDevice image) (bootOf image) chainFuel s n.toNat 0 (parsed offset m)
    importEntry (imageDevice image) (bootOf image) mountpoint offset m =
        (true, storeFile mountpoint (r.2.buffers .fileBuf) (UInt64.ofNat r.1) r.2) ∧
      ∀ k, min n.toNat 4096 ≤ k * (bootOf image).clusterSize →
        window (r.2.buffers .fileBuf) (UInt64.ofNat r.1).toNat =
          (chainContents image k s.toNat).take (min n.toNat 4096) := by
  intro r
  have hpos : 0 < (bootOf image).clusterSize := by
    have hle := add_le_of_mem_entryOffsets ho
    omega
  have hsize : ¬ (bootOf image).bytesPerSector.toNat > Buffer.fatSectorBuf.size := by
    rw [hbps]
    decide
  have hcases := importEntry_cases (imageDevice image) (bootOf image) mountpoint offset m
  simp only [hk, hs, hn, importFile_eq, if_neg hsize] at hcases
  refine ⟨hcases, fun k hle => ?_⟩
  have hfuel : min n.toNat 4096 ≤ chainFuel := Nat.min_le_right ..
  have hwin : window (r.2.buffers .fileBuf) r.1 = window ((parsed offset m).buffers .fileBuf) 0 ++
      (chainContents image k s.toNat).take (min n.toNat 4096) :=
    window_readChain hbps hpos rfl hfuel hle hvis (parsed offset m)
  rw [window_zero, List.nil_append] at hwin
  -- what has been written fits a word
  have hlen := congrArg List.length hwin
  rw [length_window, List.length_take] at hlen
  rw [UInt64.toNat_ofNat', Nat.mod_eq_of_lt (by omega)]
  exact hwin

/-- A volume whose root directory holds `A`, of 513 bytes in the clusters 3 and 5. -/
def longFile : Mem UInt8 :=
  sparseImage (smallBoot ++ [(524, 5), (532, 0xff), (533, 0xff), (534, 0xff), (535, 0x0f)] ++
    smallEntry 0 'A'.toUInt8 3 1 ++ [(1053, 2), (1536, 'x'.toUInt8), (2560, 'y'.toUInt8)])

/-- The last byte of the file `A` is in its second cluster, which is not the one behind the
first. -/
theorem importEntry_reference_longFile :
    let m := Mount.start (init staticTable) fun _ => rootBytes longFile
    let n : UInt32 := 513
    let r := readChain (imageDevice longFile) (bootOf longFile) chainFuel 3 n.toNat 0 (parsed 0 m)
    importEntry (imageDevice longFile) (bootOf longFile) (ascii "/tmp") 0 m =
        (true, storeFile (ascii "/tmp") (r.2.buffers .fileBuf) (UInt64.ofNat r.1) r.2) ∧
      window (r.2.buffers .fileBuf) (UInt64.ofNat r.1).toNat =
        'x'.toUInt8 :: List.replicate 511 0 ++ ['y'.toUInt8] := by
  intro m n r
  have hoffset : 0 ∈ entryOffsets (bootOf longFile).clusterSize := by decide +kernel
  have hkind : entryKind (m.buffers .clusterBuf) 0 = .file := by decide +kernel
  have hsize : (bootOf longFile).clusterSize = 512 := by decide +kernel
  have hone : clustersFrom longFile 1 3 = [3] := by decide +kernel
  have htwo : clustersFrom longFile 2 3 = [3, 5] := by decide +kernel
  have hsectors : ∀ x ∈ [3, 5], 2 ≤ x ∧ (bootOf longFile).dataSector x < 2 ^ 32 := by
    decide +kernel
  have hvis : ∀ x, Visited longFile 3 513 x →
      2 ≤ x ∧ (bootOf longFile).dataSector x < 2 ^ 32 := by
    rintro x ⟨i, hi, hx⟩
    rw [hsize] at hi
    apply hsectors
    obtain rfl | rfl : i = 0 ∨ i = 1 := by omega
    · rw [Nat.zero_add, hone, List.mem_singleton] at hx
      exact hx ▸ List.mem_cons_self
    · rwa [htwo] at hx
  obtain ⟨himport, hcontents⟩ := importEntry_reference (by decide +kernel)
    hoffset (ascii "/tmp") m hkind (s := 3) (n := n) (by decide +kernel) (by decide +kernel) hvis
  have hcovered : min n.toNat 4096 ≤ 2 * (bootOf longFile).clusterSize := by
    rw [hsize]
    decide
  exact ⟨himport, (hcontents 2 hcovered).trans (by decide +kernel)⟩

end Wnu.Fat32
