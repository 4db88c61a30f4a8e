import Wnu.Fat32.Chain
import Wnu.Fat32.Paths
import Wnu.Fat32.Volume

/-! # Array bounds of a mount

The index of every access and the length of every read are checked against the
sizes of the arrays. They stay in bounds when a cluster has at most 16 of the
sectors that a read transfers and the offsets into a sector of the table leave
room for an entry. The size of a sector that the disk claims enters only through
these offsets: 4095 is the one size below the checked bound that spoils them.
-/

namespace Wnu.Fat32

open Text Memory Runs Vfs

/-- Every access so far was within its array, and every read fitted its array. -/
structure Safe (m : Mount) : Prop where
  accesses : ∀ a ∈ m.accesses, a.2 < a.1.size
  reads : ∀ r ∈ m.reads, r.count * 512 ≤ r.buffer.size

/-- The step only adds to the records, and adds nothing out of bounds if the condition
holds. -/
structure Keeps (C : Prop) (m m' : Mount) : Prop where
  accesses : m.accesses ⊆ m'.accesses
  reads : m.reads ⊆ m'.reads
  safe : C → Safe m → Safe m'

variable {C : Prop} {m m' m'' : Mount} {b : Buffer}

theorem Safe.of_keeps (h : Keeps C m m') (hs : Safe m') : Safe m :=
  ⟨fun a ha => hs.accesses a (h.accesses ha), fun r hr => hs.reads r (h.reads hr)⟩

theorem Keeps.refl (C : Prop) (m : Mount) : Keeps C m m :=
  ⟨List.Subset.refl _, List.Subset.refl _, fun _ h => h⟩

theorem Keeps.trans (h : Keeps C m m') (h' : Keeps C m' m'') : Keeps C m m'' :=
  ⟨List.Subset.trans h.accesses h'.accesses, List.Subset.trans h.reads h'.reads,
    fun hC hs => h'.safe hC (h.safe hC hs)⟩

theorem Keeps.of_eq (h : Keeps C m m') (ha : m''.accesses = m'.accesses)
    (hr : m''.reads = m'.reads) : Keeps C m m'' :=
  ⟨ha ▸ h.accesses, hr ▸ h.reads, fun hC hs =>
    ⟨ha ▸ (h.safe hC hs).accesses, hr ▸ (h.safe hC hs).reads⟩⟩

theorem Keeps.write (h : Keeps C m m') (s : String) : Keeps C m (m'.write s) := h.of_eq rfl rfl

theorem Keeps.touch (h : Keeps C m m') {is : List ℕ} (hi : C → ∀ i ∈ is, i < b.size) :
    Keeps C m (m'.touch b is) where
  accesses := fun _ ha => List.mem_append_right _ (h.accesses ha)
  reads := h.reads
  safe hC hs := by
    refine ⟨fun a ha => ?_, (h.safe hC hs).reads⟩
    rcases List.mem_append.mp ha with ha | ha
    · obtain ⟨i, hi', rfl⟩ := List.mem_map.mp ha
      exact hi hC i hi'
    · exact (h.safe hC hs).accesses a ha

theorem Keeps.touch_one (h : Keeps C m m') {i : ℕ} (hi : i < b.size) :
    Keeps C m (m'.touch b [i]) :=
  h.touch fun _ _ hj => List.mem_singleton.mp hj ▸ hi

theorem Keeps.store (h : Keeps C m m') {i : ℕ} (hi : i < b.size) (x : UInt8) :
    Keeps C m (m'.store b i x) := (h.touch_one hi).of_eq rfl rfl

theorem Keeps.blockRead (h : Keeps C m m') (dev : Device) (lba : UInt32) (count : ℕ)
    (hn : C → count * 512 ≤ b.size) : Keeps C m (blockRead dev lba b count m').2 where
  accesses := h.accesses
  reads := fun _ hr => List.mem_cons_of_mem _ (h.reads hr)
  safe hC hs := by
    refine ⟨(h.safe hC hs).accesses, fun r hr => ?_⟩
    rcases List.mem_cons.mp hr with rfl | hr
    · exact hn hC
    · exact (h.safe hC hs).reads r hr

/-! ## Names and paths -/

theorem keeps_copyPart (base n i npos : ℕ) (hb : base + i + n ≤ 8192) (hn : npos + n ≤ 16) :
    Keeps C m (copyPart base n i npos m).2 := by
  induction n generalizing i npos m with
  | zero => exact .refl ..
  | succ n ih =>
    have hread : Keeps C m (m.touch .clusterBuf [base + i]) :=
      (Keeps.refl ..).touch_one (show base + i < 8192 by omega)
    rw [copyPart]
    split
    · exact hread
    · exact (hread.store (b := .name) (show npos < 16 by omega) _).trans
        (ih _ _ (by omega) (by omega))

theorem keeps_decodeName {offset : ℕ} (ho : offset + 32 ≤ 8192) :
    Keeps C m (decodeName offset m) := by
  obtain ⟨hp, -⟩ := wrote_copyPart offset 8 0 0 m
  have h8 := length_field_le (m.buffers .clusterBuf) (offset + 0) 8
  have hbase : Keeps C m (copyPart offset 8 0 0 m).2 :=
    keeps_copyPart offset 8 0 0 (by omega) (by omega)
  unfold decodeName
  generalize copyPart offset 8 0 0 m = r at hp hbase ⊢
  obtain ⟨npos, m₁⟩ := r
  simp only at hp hbase ⊢
  have hread : Keeps C m (m₁.touch .clusterBuf [offset + 8]) :=
    hbase.touch_one (show offset + 8 < 8192 by omega)
  split
  · have hdot := hread.store (b := .name) (show npos < 16 by omega) dot
    obtain ⟨hp', -⟩ := wrote_copyPart (offset + 8) 3 0 (npos + 1)
      ((m₁.touch .clusterBuf [offset + 8]).store .name npos dot)
    have h3 := length_field_le (((m₁.touch .clusterBuf [offset + 8]).store .name npos dot).buffers
      .clusterBuf) (offset + 8 + 0) 3
    have hext := hdot.trans (keeps_copyPart (offset + 8) 3 0 (npos + 1) (by omega) (by omega))
    exact hext.store (show _ < 16 by omega) 0
  · exact hread.store (show npos < 16 by omega) 0

/-- `name` holds a string that ends within the array. -/
def NameEnds (m : Mount) : Prop := ∃ k < 16, m.buffers .name k = 0

theorem Wrote.nameEnds {p : ℕ} {s : List UInt8} (h : Wrote .path p s m m') (hm : NameEnds m) :
    NameEnds m' := by
  rw [NameEnds, h.buffers_of_ne (by decide)]
  exact hm

theorem nameEnds_parsed (offset : ℕ) (m : Mount) : NameEnds (parsed offset m) := by
  have hlen := length_shortName_le (m.buffers .clusterBuf) offset
  refine ⟨(shortName (m.buffers .clusterBuf) offset).length, by omega, ?_⟩
  rw [(wrote_parsed offset m).buffers, Function.update_self, copyLoop_apply, if_pos (by simp),
    ofList, Nat.sub_zero]
  simp

theorem keeps_copyMountpoint (mountpoint : List UInt8) {p : ℕ} (hp : p < 64) :
    (copyMountpoint mountpoint p m).1 < 64 ∧ Keeps C m (copyMountpoint mountpoint p m).2 := by
  induction mountpoint generalizing p m with
  | nil => exact ⟨hp, .refl ..⟩
  | cons c mountpoint ih =>
    rw [copyMountpoint]
    split
    case isTrue h =>
      obtain ⟨hlt, hk⟩ := ih (p := p + 1) (m := m.store .path p c) h.2
      exact ⟨hlt, ((Keeps.refl ..).store (b := .path) hp c).trans hk⟩
    case isFalse => exact ⟨hp, .refl ..⟩

theorem keeps_copyName {n i k p : ℕ} (hp : p < 64) (hi : i ≤ k) (hk : k < 16)
    (h0 : m.buffers .name k = 0) :
    (copyName n i p m).1 < 64 ∧ Keeps C m (copyName n i p m).2 := by
  induction n generalizing i p m with
  | zero => exact ⟨hp, .refl ..⟩
  | succ n ih =>
    have hread : Keeps C m (m.touch .name [i]) :=
      (Keeps.refl ..).touch_one (show i < 16 by omega)
    rw [copyName]
    split
    case isTrue h =>
      have hik : i ≠ k := by
        rintro rfl
        exact h.1 h0
      have hw : Wrote .path p [m.buffers .name i] m
          ((m.touch .name [i]).store .path p (m.buffers .name i)) := (wrote_store ..).of_touch
      obtain ⟨hlt, hs⟩ := ih (i := i + 1) (p := p + 1)
        (m := (m.touch .name [i]).store .path p (m.buffers .name i)) h.2 (by omega)
        (by rw [hw.buffers_of_ne (by decide), h0])
      exact ⟨hlt, (hread.store (b := .path) hp _).trans hs⟩
    case isFalse => exact ⟨hp, hread⟩

theorem keeps_joinPath (mountpoint : List UInt8) (hm : NameEnds m) :
    Keeps C m (joinPath mountpoint m) := by
  obtain ⟨hp, hk⟩ := keeps_copyMountpoint (C := C) (m := m) mountpoint (p := 0) (by decide)
  have hend := (wrote_copyMountpoint mountpoint 0 m).2.nameEnds hm
  unfold joinPath
  generalize copyMountpoint mountpoint 0 m = r at hp hk hend ⊢
  obtain ⟨p, m₁⟩ := r
  simp only at hp hk hend ⊢
  split
  case isTrue h =>
    obtain ⟨k, hk16, h0⟩ := (wrote_store .path p slash m₁).nameEnds hend
    obtain ⟨hp', hk'⟩ := keeps_copyName (C := C) (n := Buffer.path.size) (i := 0) (p := p + 1) h
      (Nat.zero_le k) hk16 h0
    exact ((hk.store (b := .path) hp slash).trans hk').store (b := .path) hp' 0
  case isFalse =>
    obtain ⟨k, hk16, h0⟩ := hend
    obtain ⟨hp', hk'⟩ := keeps_copyName (C := C) (n := Buffer.path.size) (i := 0) hp
      (Nat.zero_le k) hk16 h0
    exact (hk.trans hk').store (b := .path) hp' 0

/-! ## Files -/

/-- Sizes in a boot sector with which no disk leads out of the arrays. -/
def Boot.Bounded (boot : Boot) : Prop :=
  boot.sectorsPerCluster.toNat ≤ 16 ∧
    (boot.bytesPerSector.toNat = 4095 → boot.sectorsPerCluster.toNat = 0)

theorem copySize_le (boot : Boot) (bytesLeft written : ℕ) :
    copySize boot bytesLeft written ≤ 4096 - written := by
  unfold copySize
  simp only [Buffer.size]
  split_ifs <;> omega

theorem keeps_copyCluster (written copy : ℕ) (hw : written + copy ≤ 4096) :
    Keeps C m (copyCluster written copy m) := by
  refine forLoop_invariant (P := fun _ m' => Keeps C m m') (.refl ..) fun i hi m' h => ?_
  have hread : Keeps C m (m'.touch .clusterBuf [i]) :=
    h.touch_one (show i < 8192 by omega)
  exact hread.store (show written + i < 4096 by omega) _

theorem keeps_fatEntry {offset : ℕ} (ho : C → offset + 3 < 4096) :
    Keeps C m (fatEntry offset m).2 := by
  apply (Keeps.refl ..).touch
  intro hC i hi
  have h := ho hC
  simp only [Buffer.size]
  simp only [List.mem_cons, List.not_mem_nil, or_false] at hi
  omega

section Boot

variable {dev : Device} {boot : Boot} {mountpoint : List UInt8}

theorem keeps_readChain (hbps : boot.bytesPerSector ≠ 0)
    (hmax : boot.bytesPerSector.toNat ≤ 4096)
    (h0 : 0 < boot.clusterSize) {fuel : ℕ} {cluster : UInt32} {bytesLeft written : ℕ} :
    Keeps boot.Bounded m (readChain dev boot fuel cluster bytesLeft written m).2 := by
  induction fuel generalizing cluster bytesLeft written m with
  | zero => exact .refl ..
  | succ fuel ih =>
    have hspc : boot.sectorsPerCluster.toNat ≠ 0 := (Nat.pos_of_mul_pos_left h0).ne'
    have hw := copySize_le boot bytesLeft written
    unfold readChain
    dsimp only
    split
    case isFalse => exact .refl ..
    case isTrue h =>
      rw [Buffer.size] at h
      have hread : Keeps boot.Bounded m (blockRead dev (boot.sectorOfCluster cluster) .clusterBuf
          boot.sectorsPerCluster.toNat m).2 :=
        (Keeps.refl ..).blockRead dev _ _ fun hB => by
          have h16 := hB.1
          simp only [Buffer.size]
          omega
      split
      · exact hread.write _
      have hcopy := hread.trans
        (keeps_copyCluster written (copySize boot bytesLeft written) (by omega))
      have htable := hcopy.blockRead (b := .fatSectorBuf) dev (boot.fatSector cluster) 1
        fun _ => by decide
      split
      · exact htable.write _
      have hentry := htable.trans (keeps_fatEntry (C := boot.Bounded) fun hB =>
        boot.fatSectorOffset_lt hbps hmax (fun h => hspc (hB.2 h)) cluster)
      split
      · exact hentry
      split
      · exact hentry
      · exact hentry.trans ih

theorem keeps_importEmpty (hm : NameEnds m) : Keeps C m (importEmpty mountpoint m) :=
  (keeps_joinPath mountpoint hm).of_eq rfl rfl

theorem keeps_importFile_readChain (hmax : boot.bytesPerSector.toNat ≤ 4096)
    {cluster size : UInt32} (hm : NameEnds m) :
    Keeps C (readChain dev boot chainFuel cluster size.toNat 0 m).2
      (importFile dev boot mountpoint cluster size m) := by
  have hsector : ¬ boot.bytesPerSector.toNat > Buffer.fatSectorBuf.size := Nat.not_lt.mpr hmax
  rw [importFile, if_neg hsector]
  have hname := (frame_readChain dev boot chainFuel cluster size.toNat 0 m).2
  generalize readChain dev boot chainFuel cluster size.toNat 0 m = r at hname ⊢
  obtain ⟨written, m₁⟩ := r
  simp only at hname ⊢
  have hjoin : Keeps C m₁ (joinPath mountpoint m₁) := keeps_joinPath mountpoint (by
    rw [NameEnds, hname]
    exact hm)
  generalize joinPath mountpoint m₁ = m₂ at hjoin ⊢
  split
  · exact hjoin.of_eq rfl rfl
  split <;> exact hjoin.of_eq rfl rfl

theorem keeps_importFile (hbps : boot.bytesPerSector ≠ 0) (h0 : 0 < boot.clusterSize)
    {cluster size : UInt32} (hm : NameEnds m) :
    Keeps boot.Bounded m (importFile dev boot mountpoint cluster size m) := by
  by_cases hmax : boot.bytesPerSector.toNat ≤ 4096
  · exact (keeps_readChain hbps hmax h0).trans (keeps_importFile_readChain hmax hm)
  · rw [importFile, if_pos (show boot.bytesPerSector.toNat > Buffer.fatSectorBuf.size from
      Nat.lt_of_not_le hmax)]
    exact (Keeps.refl ..).write _

theorem keeps_parsed {offset : ℕ} (ho : offset + 32 ≤ 8192) : Keeps C m (parsed offset m) := by
  have hfirst : Keeps C m ((m.touch .clusterBuf [offset]).touch .clusterBuf [offset + 11]) :=
    ((Keeps.refl ..).touch_one (show offset < 8192 by omega)).touch_one
      (show offset + 11 < 8192 by omega)
  apply (hfirst.trans (keeps_decodeName ho)).touch
  intro _ i hi
  simp only [Buffer.size]
  simp only [List.mem_cons, List.not_mem_nil, or_false] at hi
  omega

theorem keeps_importEntry (dev : Device) (mountpoint : List UInt8)
    (hbps : boot.bytesPerSector ≠ 0) (hsize : boot.clusterSize ≤ 8192)
    {offset : ℕ} (ho : offset + 32 ≤ boot.clusterSize) :
    Keeps boot.Bounded m (importEntry dev boot mountpoint offset m).2 := by
  have hcases := importEntry_cases dev boot mountpoint offset m
  have hparsed : Keeps boot.Bounded m (parsed offset m) := keeps_parsed (by omega)
  have hname := nameEnds_parsed offset m
  cases hk : entryKind (m.buffers .clusterBuf) offset <;> simp only [hk] at hcases
  case last =>
    rw [hcases]
    exact (Keeps.refl ..).touch_one (show offset < 8192 by omega)
  case skipped =>
    obtain ⟨is, his, he⟩ := hcases
    rw [he]
    apply (Keeps.refl ..).touch
    intro _ i hi
    have h := his i hi
    simp only [Buffer.size]
    omega
  case empty =>
    rw [hcases]
    exact hparsed.trans (keeps_importEmpty hname)
  case file =>
    rw [hcases]
    exact hparsed.trans (keeps_importFile hbps (by omega) hname)

theorem keeps_importEntries (hbps : boot.bytesPerSector ≠ 0) (hsize : boot.clusterSize ≤ 8192)
    {offsets : List ℕ} (ho : ∀ offset ∈ offsets, offset + 32 ≤ boot.clusterSize) :
    Keeps boot.Bounded m (importEntries dev boot mountpoint offsets m) := by
  induction offsets generalizing m with
  | nil => exact .refl ..
  | cons offset offsets ih =>
    have hentry := keeps_importEntry (m := m) dev mountpoint hbps hsize
      (ho offset List.mem_cons_self)
    rw [importEntries]
    generalize importEntry dev boot mountpoint offset m = r at hentry ⊢
    obtain ⟨goOn, m₁⟩ := r
    cases goOn
    · exact hentry
    · exact hentry.trans (ih fun o h => ho o (List.mem_cons_of_mem _ h))

/-! ## The mount -/

theorem keeps_ensureMountpoint (mountpoint : List UInt8) (m : Mount) :
    Keeps C m (ensureMountpoint mountpoint m).2 := by
  unfold ensureMountpoint
  split <;> exact (Keeps.refl ..).of_eq rfl rfl

theorem keeps_rootRead : Keeps boot.Bounded m (rootRead dev boot mountpoint m) :=
  (keeps_ensureMountpoint mountpoint m).blockRead dev _ _ fun hB => by
    have h16 := hB.1
    simp only [Buffer.size]
    omega

theorem keeps_mountBoot_of_rejected (h : boot.bytesPerSector = 0 ∨ ¬ Mountable m.vfs mountpoint ∨
    8192 < boot.clusterSize) : Keeps C m (mountBoot dev boot mountpoint m).2 := by
  have hens := keeps_ensureMountpoint (C := C) mountpoint m
  have hok := ensureMountpoint_fst mountpoint m
  unfold mountBoot
  generalize ensureMountpoint mountpoint m = r at hens hok ⊢
  obtain ⟨ok, m₁⟩ := r
  simp only at hens hok ⊢
  split
  · exact (Keeps.refl ..).write _
  split
  · exact hens.write _
  split
  · exact hens.write _
  case isFalse h0 hM hs =>
    exfalso
    rw [Bool.not_eq_true, Bool.not_eq_false'] at hM
    rcases h with h | h | h
    · exact h0 h
    · exact h (hok.mp hM)
    · exact hs h

theorem keeps_mountBoot_rootRead (h0 : boot.bytesPerSector ≠ 0) (hM : Mountable m.vfs mountpoint)
    (hs : boot.clusterSize ≤ 8192) :
    Keeps boot.Bounded (rootRead dev boot mountpoint m) (mountBoot dev boot mountpoint m).2 := by
  rw [mountBoot_of_accepted h0 hM hs]
  split
  · exact (keeps_importEntries h0 hs fun _ => add_le_of_mem_entryOffsets).write _
  · exact (Keeps.refl ..).write _

theorem safe_mountBoot (hm : Safe m) (h : boot.bytesPerSector = 0 ∨ ¬ Mountable m.vfs mountpoint ∨
    8192 < boot.clusterSize ∨ boot.Bounded) : Safe (mountBoot dev boot mountpoint m).2 := by
  by_cases hrej : boot.bytesPerSector = 0 ∨ ¬ Mountable m.vfs mountpoint ∨ 8192 < boot.clusterSize
  · exact (keeps_mountBoot_of_rejected hrej (C := True)).safe trivial hm
  · have hb : boot.Bounded := by
      rcases h with h | h | h | h
      · exact absurd (.inl h) hrej
      · exact absurd (.inr (.inl h)) hrej
      · exact absurd (.inr (.inr h)) hrej
      · exact h
    simp only [not_or, not_not, Nat.not_lt] at hrej
    obtain ⟨h0, hM, hs⟩ := hrej
    exact (keeps_rootRead.trans (keeps_mountBoot_rootRead h0 hM hs)).safe hb hm

/-! ## Disks that lead out of bounds -/

def probeDirectory : Mem UInt8 :=
  sparseImage [(0, 'A'.toUInt8), (26, 0xff), (27, 0x07), (28, 1)]

def probe (sector : Mem UInt8) : Device where
  found := true
  read _ r _ := (true, if r.buffer = .sector then sector else probeDirectory)

/-- In sectors of 4095 bytes, the entry of cluster 2047 starts 2 bytes before the end of
its sector. -/
theorem not_safe_readChain (hok : ∀ n r bytes, (dev.read n r bytes).1 = true)
    (hbps : boot.bytesPerSector.toNat = 4095) (h0 : 0 < boot.clusterSize) (fuel : ℕ)
    {bytesLeft : ℕ} (hleft : 0 < bytesLeft) :
    ¬ Safe (readChain dev boot (fuel + 1) 2047 bytesLeft 0 m).2 := by
  have hne : boot.bytesPerSector ≠ 0 := fun h => by simp [h] at hbps
  have hoff : (boot.fatSectorOffset 2047).toNat = 4093 := by
    rw [boot.toNat_fatSectorOffset hne, hbps]
    decide
  have hbad (m : Mount) : ¬ Safe (fatEntry (boot.fatSectorOffset 2047).toNat m).2 := by
    intro h
    have hlt := h.accesses (.fatSectorBuf, 4096) (by simp [fatEntry, Mount.touch, hoff])
    exact absurd hlt (by decide)
  have hread (lba : UInt32) (b : Buffer) (count : ℕ) (m : Mount) :
      (blockRead dev lba b count m).1 = true := hok ..
  have hroom : bytesLeft > 0 ∧ 0 < Buffer.fileBuf.size := ⟨hleft, by decide⟩
  rw [readChain, if_pos hroom]
  simp only [hread, Bool.not_true, Bool.false_eq_true, if_false]
  split
  · exact hbad _
  split
  · exact hbad _
  · exact fun hs => hbad _ (hs.of_keeps (keeps_readChain hne (by omega) h0))

theorem le_clusterSize (h0 : 0 < boot.clusterSize) :
    boot.bytesPerSector.toNat ≤ boot.clusterSize :=
  Nat.le_mul_of_pos_right _ (Nat.pos_of_mul_pos_left h0)

theorem not_safe_importEntries (hok : ∀ n r bytes, (dev.read n r bytes).1 = true)
    (hbps : boot.bytesPerSector.toNat = 4095) (h0 : 0 < boot.clusterSize)
    (hs : boot.clusterSize ≤ 8192) (hm : m.buffers .clusterBuf = probeDirectory) :
    ¬ Safe (importEntries dev boot mountpoint (entryOffsets boot.clusterSize) m) := by
  have hne : boot.bytesPerSector ≠ 0 := fun h => by simp [h] at hbps
  obtain ⟨offsets, ho⟩ : ∃ offsets, entryOffsets boot.clusterSize = 0 :: offsets := by
    have hle := le_clusterSize h0
    obtain ⟨k, hk⟩ := Nat.exists_eq_add_of_le' (show 1 ≤ boot.clusterSize / 32 by omega)
    exact ⟨_, by rw [entryOffsets, hk, List.range_succ_eq_map, List.map_cons]⟩
  have hcases := importEntry_cases dev boot mountpoint 0 m
  rw [hm, show entryKind probeDirectory 0 = .file by decide] at hcases
  simp only [show startCluster probeDirectory 0 = 2047 by decide,
    show filesize probeDirectory 0 = 1 by decide] at hcases
  have hkeep : Keeps True
      (readChain dev boot chainFuel 2047 (1 : UInt32).toNat 0 (parsed 0 m)).2
      (importFile dev boot mountpoint 2047 1 (parsed 0 m)) :=
    keeps_importFile_readChain (by omega) (nameEnds_parsed 0 m)
  have hfile : ¬ Safe (importFile dev boot mountpoint 2047 1 (parsed 0 m)) := fun hsafe =>
    not_safe_readChain hok hbps h0 4095 (by decide) (hsafe.of_keeps hkeep)
  rw [ho, importEntries, hcases]
  exact fun hsafe => hfile (hsafe.of_keeps (keeps_importEntries hne hs fun o hmem =>
    add_le_of_mem_entryOffsets (by rw [ho]; exact List.mem_cons_of_mem _ hmem)))

/-- Disks with a boot sector that is accepted and whose sizes are not bounded. -/
theorem not_safe_mountBoot (hok : ∀ n r bytes, (dev.read n r bytes).1 = true)
    (hdir : ∀ n lba count bytes, (dev.read n ⟨lba, .clusterBuf, count⟩ bytes).2 = probeDirectory)
    (h0 : boot.bytesPerSector ≠ 0) (hM : Mountable m.vfs mountpoint)
    (hs : boot.clusterSize ≤ 8192) (hb : ¬ boot.Bounded) :
    ¬ Safe (mountBoot dev boot mountpoint m).2 := by
  intro hsafe
  have hroot : Safe (rootRead dev boot mountpoint m) :=
    hsafe.of_keeps (keeps_mountBoot_rootRead h0 hM hs)
  have h16 : boot.sectorsPerCluster.toNat ≤ 16 := by
    have hfit := hroot.reads _ List.mem_cons_self
    simp only [Buffer.size] at hfit
    omega
  have hbad : boot.bytesPerSector.toNat = 4095 ∧ boot.sectorsPerCluster.toNat ≠ 0 := by
    by_contra hn
    exact hb ⟨h16, fun h => by_contra fun hne => hn ⟨h, hne⟩⟩
  rw [mountBoot_of_accepted h0 hM hs, 
    if_pos (show (blockRead ..).1 = true from hok ..)] at hsafe
  refine not_safe_importEntries (m := rootRead dev boot mountpoint m) hok hbad.1 ?_ hs ?_
    (hsafe.of_keeps ((Keeps.refl True _).write _))
  · exact Nat.mul_pos (by omega) (Nat.pos_of_ne_zero hbad.2)
  · exact (buffers_blockRead ..).trans (hdir ..)

theorem keeps_bootRead : Keeps C m (bootRead dev m) :=
  ((Keeps.refl ..).blockRead dev 0 1 fun _ => by decide).touch fun _ => by decide

theorem keeps_fat32Mount_of_failed (mountpoint : List UInt8) (h : ¬ (dev.found = true ∧
    (dev.read m.reads.length ⟨0, .sector, 1⟩ (m.buffers .sector)).1 = true)) :
    Keeps C m (fat32Mount dev mountpoint m).2 := by
  have hfirst : Keeps C m (blockRead dev 0 .sector 1 m).2 :=
    (Keeps.refl ..).blockRead dev 0 1 fun _ => by decide
  unfold fat32Mount
  split
  · exact (Keeps.refl ..).write _
  case isFalse hfound =>
    dsimp only
    split
    · exact hfirst.write _
    case isFalse hok =>
      rw [Bool.not_eq_true, Bool.not_eq_false'] at hfound hok
      exact absurd ⟨hfound, hok⟩ h

end Boot

/-- For what a first read leaves in `sector`, whatever the disk holds elsewhere and
whichever reads fail, a mount stays in bounds exactly if it refuses the sizes or the
mountpoint, or the sizes are bounded. -/
theorem fat32Mount_safe_iff (sector : Mem UInt8) (mountpoint : List UInt8) (t : Table)
    (buffers : Buffer → Mem UInt8) :
    (∀ dev : Device, (dev.read 0 ⟨0, .sector, 1⟩ (buffers .sector)).2 = sector →
      Safe (fat32Mount dev mountpoint (.start t buffers)).2) ↔
    (bootOf sector).bytesPerSector = 0 ∨ ¬ Mountable t mountpoint ∨
      8192 < (bootOf sector).clusterSize ∨ (bootOf sector).Bounded := by
  constructor
  · intro h
    by_contra hn
    simp only [not_or, not_not, Nat.not_lt] at hn
    obtain ⟨h0, hM, hs, hb⟩ := hn
    apply absurd (h (probe sector) rfl)
    have hok (n : ℕ) (r : Read) (bytes : Mem UInt8) :
        ((probe sector).read n r bytes).1 = true := rfl
    rw [fat32Mount_eq_mountBoot mountpoint rfl (hok ..)]
    exact not_safe_mountBoot hok (fun _ _ _ _ => rfl) h0 hM hs hb
  · intro h dev hdev
    have hstart : Safe (.start t buffers) := ⟨by simp [Mount.start], by simp [Mount.start]⟩
    by_cases hok : dev.found = true ∧
        (dev.read 0 ⟨0, .sector, 1⟩ (buffers .sector)).1 = true
    · rw [fat32Mount_eq_mountBoot (m := .start t buffers) mountpoint hok.1 hok.2]
      have hboot : Safe (bootRead dev (.start t buffers)) :=
        (keeps_bootRead (C := True)).safe trivial hstart
      exact safe_mountBoot hboot (hdev ▸ h)
    · exact (keeps_fat32Mount_of_failed (C := True) mountpoint hok).safe trivial hstart

def smallSectors : Mem UInt8 :=
  sparseImage [(12, 1), (13, 32), (14, 1), (16, 1), (36, 1), (44, 2)]

/-- The 8192 bytes of a cluster are checked, but 32 sectors of 512 bytes are read. -/
theorem not_safe_smallSectors :
    ¬ Safe (fat32Mount (imageDevice smallSectors) (ascii "/tmp")
      (.start (init staticTable) fun _ _ => 0)).2 := by
  intro h
  have hroot : (⟨2, .clusterBuf, 32⟩ : Read) ∈ (fat32Mount (imageDevice smallSectors) (ascii "/tmp")
      (.start (init staticTable) fun _ _ => 0)).2.reads := by
    decide +kernel
  exact absurd (h.reads _ hroot) (by decide)

end Wnu.Fat32
