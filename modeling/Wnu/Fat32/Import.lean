import Wnu.Fat32.Confinement
import Wnu.Fat32.Directory
import Wnu.Fat32.Files
import Wnu.Vfs.Contents
import Mathlib.Data.List.Find

/-! # Importing a directory

While the entries are read as the root directory has them, each round of the loop
adds the file of its entry. When all of them are, the import is what it should be.
When an entry is read as an end mark or as a file that the directory does not
have, it is not.
-/

namespace Wnu.Fat32

open Text Memory Components Vfs

variable {image : Mem UInt8} {k i j : ℕ} {M mountpoint : List UInt8} {t : Table} {m m' : Mount}

def filePath (image : Mem UInt8) (M : List UInt8) (j : ℕ) : List UInt8 :=
  M ++ slash :: entryName image j

/-- A directory other than the root with nothing in it, whose path leaves room for a short
name, and free nodes for a number of files. -/
structure EmptyDir (t : Table) (M : List UInt8) (k : ℕ) : Prop where
  dir : ∃ node, t.node M = some node ∧ node.type = .dir
  ne_root : M ≠ rootPath
  length_le : M.length ≤ 50
  empty : ∀ name, name ≠ [] → slash ∉ name → t.node (M ++ slash :: name) = none
  room : (Slots.usedSlots view t.nodes).card + k ≤ maxNodes

/-- A successful mount after which the files of the entries, and no other new nodes, are
there. -/
structure Imported (image : Mem UInt8) (k : ℕ) (M : List UInt8) (t : Table) (r : Bool × Mount) :
    Prop where
  ok : r.1 = true
  files : ∀ j < k, ∃ node, r.2.vfs.node (filePath image M j) = some node ∧ node.type = .file ∧
    node.contents = entryContents image j
  only : ∀ p, (r.2.vfs.node p).isSome → (t.node p).isSome ∨ ∃ j < k, p = filePath image M j

/-- The state before the entry `i` is read, when all entries before it were read as the
directory has them. -/
structure Progress (image : Mem UInt8) (M : List UInt8) (t : Table) (i : ℕ) (m : Mount) :
    Prop where
  inv : Inv m.vfs
  buffer : ∀ j < (bootOf image).clusterSize, m.buffers .clusterBuf j = readFrom image i j
  card : (Slots.usedSlots view m.vfs.nodes).card = (Slots.usedSlots view t.nodes).card + i
  old : ∀ p, (∀ j < i, p ≠ filePath image M j) → m.vfs.node p = t.node p
  files : ∀ j < i, ∃ node, m.vfs.node (filePath image M j) = some node ∧ node.type = .file ∧
    node.contents = entryContents image j

/-! ## New files -/

theorem ne_filePath (M : List UInt8) (j : ℕ) : M ≠ filePath image M j := fun h => by
  have hlen := congrArg List.length h
  simp [filePath] at hlen

theorem Progress.mounted (h : Progress image M t i m) (hM : EmptyDir t M k) :
    ∃ node, m.vfs.node M = some node ∧ node.type = .dir := by
  rw [h.old M fun j _ => ne_filePath M j]
  exact hM.dir

theorem Progress.creatable (h : Progress image M t i m) (hM : EmptyDir t M k)
    {name : List UInt8} (hname : LegalName name) (hlen : name.length ≤ 12)
    (hnew : ∀ j < i, name ≠ entryName image j)
    (hroom : (Slots.usedSlots view t.nodes).card + i < maxNodes) :
    Creatable m.vfs (M ++ slash :: name) := by
  obtain ⟨node, hn, hdir⟩ := h.mounted hM
  have hfree : slash ∉ name := fun hmem => (hname.2 _ hmem).2 rfl
  have hle := hM.length_le
  refine h.inv.creatable_append hn hdir hfree (by rw [maxName]; omega) ?_
    (by rw [h.card]; exact hroom)
  rw [h.old _ fun j hj he => hnew j hj (by simpa [filePath] using he)]
  exact hM.empty name hname.1 hfree

theorem text_pathString_of_text {name : List UInt8} (hlen : (text mountpoint).length ≤ 50)
    (hshort : name.length ≤ 12) (hm : text (window (m.buffers .name) 64) = name) :
    text (joinPath mountpoint m).pathString = text mountpoint ++ slash :: name := by
  rw [text_pathString_joinPath, joined, hm]
  apply List.take_of_length_le
  rw [List.length_append, List.length_cons]
  omega

theorem text_pathString_of_name {name : List UInt8} (hname : LegalName name)
    (hlen : (text mountpoint).length ≤ 50) (hshort : name.length ≤ 12)
    (hm : text (window (m.buffers .name) 64) = text name) :
    text (joinPath mountpoint m).pathString = text mountpoint ++ slash :: name :=
  text_pathString_of_text hlen hshort (hm.trans (text_eq_self fun c hc => (hname.2 c hc).1))

theorem text_name_parsed (offset : ℕ) (m : Mount) :
    text (window ((parsed offset m).buffers .name) 64) =
      text (shortName (m.buffers .clusterBuf) offset) := by
  have hlen := length_shortName_le (m.buffers .clusterBuf) offset
  exact (wrote_parsed offset m).text_window (by omega)

@[simp] theorem clusterBuf_importEmpty (mountpoint : List UInt8) (m : Mount) :
    (importEmpty mountpoint m).buffers .clusterBuf = m.buffers .clusterBuf := by
  have hjoin : (joinPath mountpoint m).buffers .clusterBuf = m.buffers .clusterBuf :=
    (wrote_joinPath mountpoint m).buffers_of_ne (by decide)
  exact hjoin

theorem vfs_importEmpty_of_not_creatable {path : List UInt8}
    (hpath : text (joinPath mountpoint m).pathString = path) (hc : ¬ Creatable m.vfs path) :
    (importEmpty mountpoint m).vfs = m.vfs := by
  have hjoin := (wrote_joinPath mountpoint m).vfs
  unfold importEmpty
  rw [← hpath, ← hjoin] at hc
  rcases createNode_cases .file (joinPath mountpoint m).vfs (joinPath mountpoint m).pathString with
    ⟨-, he⟩ | ⟨c, -⟩
  · simp only [createFile, he]
    exact hjoin
  · exact absurd c hc

theorem importEmpty_of_creatable {path : List UInt8} (h : Inv m.vfs)
    (hpath : text (joinPath mountpoint m).pathString = path) (c : Creatable m.vfs path) :
    Added m.vfs (importEmpty mountpoint m).vfs path [] ∧
      (importEmpty mountpoint m).buffers .clusterBuf = m.buffers .clusterBuf := by
  refine ⟨?_, clusterBuf_importEmpty mountpoint m⟩
  have hjoin := wrote_joinPath mountpoint m
  unfold importEmpty
  generalize joinPath mountpoint m = m₁ at hpath hjoin ⊢
  rw [← hpath, ← hjoin.vfs] at c
  rw [← hjoin.vfs] at h
  have hadd := (added_createFile h c).2
  rw [hpath, hjoin.vfs] at hadd
  simp only [hjoin.vfs]
  exact hadd

theorem importFile_of_creatable (dev : Device) {boot : Boot}
    (hmax : boot.bytesPerSector.toNat ≤ 4096) (cluster size : UInt32) {path : List UInt8}
    (h : Inv m.vfs) :
    let r := readChain dev boot chainFuel cluster size.toNat 0 m
    text (joinPath mountpoint r.2).pathString = path → Creatable m.vfs path →
    Added m.vfs (importFile dev boot mountpoint cluster size m).vfs path
        ((window (r.2.buffers .fileBuf) (UInt64.ofNat r.1).toNat).take 4096) ∧
      (importFile dev boot mountpoint cluster size m).buffers .clusterBuf =
        r.2.buffers .clusterBuf := by
  intro r hpath c
  have hsize : ¬ boot.bytesPerSector.toNat > Buffer.fatSectorBuf.size := Nat.not_lt.mpr hmax
  have hvfs : r.2.vfs = m.vfs := (frame_readChain dev boot chainFuel cluster size.toNat 0 m).1
  have hjoin := wrote_joinPath mountpoint r.2
  rw [importFile, if_neg hsize]
  simp only [show readChain dev boot chainFuel cluster size.toNat 0 m = r from rfl]
  generalize joinPath mountpoint r.2 = m₁ at hpath hjoin ⊢
  have hv : m₁.vfs = m.vfs := hjoin.vfs.trans hvfs
  rw [← hpath, ← hv] at c
  rw [← hv] at h
  obtain ⟨hcreate, hadd⟩ := added_createFile h c
  obtain ⟨hwrite, hadd'⟩ := hadd.writeFile (m₁.buffers .fileBuf) (UInt64.ofNat r.1)
  have hfile : m₁.buffers .fileBuf = r.2.buffers .fileBuf := hjoin.buffers_of_ne (by decide)
  have hpath' (v : Table) : ({ m₁ with vfs := v } : Mount).pathString = m₁.pathString := rfl
  simp only [hcreate, hpath', hwrite, Bool.not_true, Bool.false_eq_true, if_false]
  rw [hpath, hv, hfile] at hadd'
  rw [hv, hfile]
  exact ⟨hadd', hjoin.buffers_of_ne (by decide)⟩

theorem importEntry_of_creatable (dev : Device) {boot : Boot} (h : Inv m.vfs)
    (hlen : (text mountpoint).length ≤ 50) {offset : ℕ} {name : List UInt8}
    (hname : text (shortName (m.buffers .clusterBuf) offset) = name)
    (hkind : entryKind (m.buffers .clusterBuf) offset = .empty ∨
      entryKind (m.buffers .clusterBuf) offset = .file ∧ boot.bytesPerSector.toNat ≤ 4096)
    (c : Creatable m.vfs (text mountpoint ++ slash :: name)) :
    ∃ m' contents, importEntry dev boot mountpoint offset m = (true, m') ∧
      Added m.vfs m'.vfs (text mountpoint ++ slash :: name) contents := by
  have hshort : name.length ≤ 12 := by
    have hpre : text (shortName (m.buffers .clusterBuf) offset) <+:
        shortName (m.buffers .clusterBuf) offset := prefix_text _
    rw [← hname]
    exact hpre.length_le.trans (length_shortName_le (m.buffers .clusterBuf) offset)
  have hparsed := wrote_parsed offset m
  have htext := (text_name_parsed offset m).trans hname
  have hcases := importEntry_cases dev boot mountpoint offset m
  rw [← hparsed.vfs] at c h ⊢
  rcases hkind with hkind | ⟨hkind, hmax⟩ <;> simp only [hkind] at hcases
  · have hadd := importEmpty_of_creatable h (text_pathString_of_text hlen hshort htext) c
    exact ⟨_, _, hcases, hadd.1⟩
  · have hframe := (frame_readChain dev boot chainFuel
      (startCluster (m.buffers .clusterBuf) offset)
      (filesize (m.buffers .clusterBuf) offset).toNat 0 (parsed offset m)).2
    have hadd := importFile_of_creatable dev hmax
      (startCluster (m.buffers .clusterBuf) offset) (filesize (m.buffers .clusterBuf) offset)
      h (text_pathString_of_text hlen hshort (by rw [hframe, htext])) c
    exact ⟨_, _, hcases, hadd.1⟩

theorem Progress.extend (h : Progress image M t i m) (hk : Importable image k) (hi : i < k)
    (hadd : Added m.vfs m'.vfs (filePath image M i) (entryContents image i))
    (hbuf : ∀ j < (bootOf image).clusterSize, m'.buffers .clusterBuf j = readFrom image (i + 1) j) :
    Progress image M t (i + 1) m' where
  inv := hadd.inv
  buffer := hbuf
  card := by rw [hadd.card, h.card, Nat.add_assoc]
  old p hp := by
    rw [hadd.node p (hp i (Nat.lt_succ_self i)), h.old p fun j hj => hp j (Nat.lt_succ_of_lt hj)]
  files j hj := by
    rcases Nat.lt_succ_iff_lt_or_eq.mp hj with hlt | rfl
    · have hne : filePath image M j ≠ filePath image M i := fun he => by
        have hname : entryName image j = entryName image i := by simpa [filePath] using he
        exact absurd (hk.distinct j (by omega) i hi hname) (by omega)
      rw [hadd.node _ hne]
      exact h.files j hlt
    · exact hadd.file

/-! ## Rounds -/

theorem entryContents_of_empty (h : entrySize image j = 0) : entryContents image j = [] := by
  rw [entryContents, fileContents, h]
  rfl

theorem readFrom_succ (image : Mem UInt8) (j : ℕ) :
    readFrom image (j + 1) =
      if entrySize image j = 0 then readFrom image j else lastBytes image j :=
  rfl

theorem readChain_entry (hk : Importable image k) (hi : i < k) (h0 : entrySize image i ≠ 0)
    (m : Mount) :
    let r := readChain (imageDevice image) (bootOf image) chainFuel
      (startCluster (rootBytes image) (32 * i))
      (filesize (rootBytes image) (32 * i)).toNat 0 m
    (window (r.2.buffers .fileBuf) (UInt64.ofNat r.1).toNat).take 4096 = entryContents image i ∧
      ∀ j < (bootOf image).clusterSize, r.2.buffers .clusterBuf j = readFrom image (i + 1) j := by
  intro r
  have hfits := hk.fits
  have hpos : 0 < min (entrySize image i) 4096 := by omega
  have hchain := readChain_image hk.sectorSize (by omega) (entryStart image i) (entrySize image i)
    (hk.chains i hi) chainFuel 0 (m := m) rfl (by rwa [Nat.zero_mul])
    (by rw [Nat.zero_mul, chainFuel]; omega) (by rw [Nat.zero_mul, window_zero, window_zero])
  rw [Nat.zero_mul, Nat.sub_zero] at hchain
  have hwritten : r.1 = min (entrySize image i) 4096 := hchain.1
  have hfile : window (r.2.buffers .fileBuf) r.1 = entryContents image i := hchain.2.1
  have hword : (UInt64.ofNat r.1).toNat = r.1 := by
    rw [UInt64.toNat_ofNat']
    exact Nat.mod_eq_of_lt (by rw [hwritten]; omega)
  constructor
  · rw [hword, hfile]
    apply List.take_of_length_le
    rw [entryContents, fileContents, length_window]
    exact Nat.min_le_right _ _
  · intro j hj
    rw [readFrom_succ, if_neg h0]
    exact hchain.2.2 j hj

theorem Progress.step (h : Progress image (text mountpoint) t i m) (hk : Importable image k)
    (hM : EmptyDir t (text mountpoint) k) (hi : i < k)
    (hsame : SameEntry (readFrom image i) (rootBytes image) (32 * i)) :
    ∃ m', importEntry (imageDevice image) (bootOf image) mountpoint (32 * i) m = (true, m') ∧
      Progress image (text mountpoint) t (i + 1) m' := by
  have hfits := hk.fits
  have hs : SameEntry (m.buffers .clusterBuf) (rootBytes image) (32 * i) :=
    (sameEntry_of_agree h.buffer (by omega)).trans hsame
  have hplain := hk.plain i hi
  have hshort := length_shortName_le (rootBytes image) (32 * i)
  have hparsed := wrote_parsed (32 * i) m
  have hbuf : (parsed (32 * i) m).buffers .clusterBuf = m.buffers .clusterBuf :=
    hparsed.buffers_of_ne (by decide)
  have hname : text (window ((parsed (32 * i) m).buffers .name) 64) =
      text (entryName image i) := by
    rw [text_name_parsed, hs.name, entryName]
  have hinv : Inv (parsed (32 * i) m).vfs := by
    rw [hparsed.vfs]
    exact h.inv
  have c : Creatable (parsed (32 * i) m).vfs (filePath image (text mountpoint) i) := by
    rw [hparsed.vfs]
    refine h.creatable hM hplain.name hshort (fun j hj he => ?_) ?_
    · exact absurd (hk.distinct i hi j (by omega) he) (by omega)
    · have hroom := hM.room
      omega
  have hcases := importEntry_cases (imageDevice image) (bootOf image) mountpoint (32 * i) m
  rw [hs.kind, hplain.kind] at hcases
  by_cases h0 : filesize (rootBytes image) (32 * i) = 0
  · have hempty : entrySize image i = 0 := by rw [entrySize, h0]; rfl
    simp only [h0, if_true] at hcases
    refine ⟨_, hcases, h.extend hk hi ?_ fun j hj => ?_⟩
    · have hadd := (importEmpty_of_creatable hinv
        (text_pathString_of_name hplain.name hM.length_le hshort hname) c).1
      rwa [hparsed.vfs, ← entryContents_of_empty hempty] at hadd
    · rw [(importEmpty_of_creatable hinv
        (text_pathString_of_name hplain.name hM.length_le hshort hname) c).2, hbuf,
        readFrom_succ, if_pos hempty, h.buffer j hj]
  · have hfull : entrySize image i ≠ 0 := fun he => h0 (UInt32.toNat_inj.mp he)
    have hkind := hplain.kind
    simp only [h0, if_false] at hcases hkind
    rw [hs.size, hs.start hkind] at hcases
    have hmax : (bootOf image).bytesPerSector.toNat ≤ 4096 := by
      rw [hk.sectorSize]
      decide
    obtain ⟨hcontents, hread⟩ := readChain_entry hk hi hfull (parsed (32 * i) m)
    have hframe := (frame_readChain (imageDevice image) (bootOf image) chainFuel
      (startCluster (rootBytes image) (32 * i)) (filesize (rootBytes image) (32 * i)).toNat 0
      (parsed (32 * i) m)).2
    obtain ⟨hadd, hcluster⟩ := importFile_of_creatable (imageDevice image) hmax
      (startCluster (rootBytes image) (32 * i)) (filesize (rootBytes image) (32 * i)) hinv
      (text_pathString_of_name hplain.name hM.length_le hshort (by rw [hframe, hname]; rfl)) c
    refine ⟨_, hcases, h.extend hk hi ?_ fun j hj => ?_⟩
    · rwa [hparsed.vfs, hcontents] at hadd
    · rw [hcluster, hread j hj]

/-! ## Runs of the loop -/

theorem importEntries_of_last (dev : Device) (boot : Boot) {offset : ℕ} (offsets : List ℕ)
    (h : entryKind (m.buffers .clusterBuf) offset = .last) :
    importEntries dev boot mountpoint (offset :: offsets) m = m.touch .clusterBuf [offset] := by
  have hcases := importEntry_cases dev boot mountpoint offset m
  rw [h] at hcases
  rw [importEntries, hcases]
  rfl

theorem importEntries_skip (dev : Device) (boot : Boot) (mountpoint : List UInt8)
    (offsets : List ℕ) (m : Mount) :
    ∃ m', m'.vfs = m.vfs ∧ m'.buffers = m.buffers ∧
      match offsets.find? fun offset => entryKind (m.buffers .clusterBuf) offset ≠ .skipped with
      | none => importEntries dev boot mountpoint offsets m = m'
      | some offset => ∃ rest, importEntries dev boot mountpoint offsets m =
          importEntries dev boot mountpoint (offset :: rest) m' := by
  induction offsets generalizing m with
  | nil => exact ⟨m, rfl, rfl, rfl⟩
  | cons offset offsets ih =>
    by_cases hk : entryKind (m.buffers .clusterBuf) offset = .skipped
    · have hcases := importEntry_cases dev boot mountpoint offset m
      rw [hk] at hcases
      obtain ⟨is, -, he⟩ := hcases
      obtain ⟨m', hv, hb, hm'⟩ := ih (m.touch .clusterBuf is)
      have hstep : importEntries dev boot mountpoint (offset :: offsets) m =
          importEntries dev boot mountpoint offsets (m.touch .clusterBuf is) := by
        rw [importEntries, he]
        rfl
      refine ⟨m', hv, hb, ?_⟩
      rw [List.find?_cons_of_neg (by simp [hk]), hstep]
      exact hm'
    · refine ⟨m, rfl, rfl, ?_⟩
      rw [List.find?_cons_of_pos (by simp [hk])]
      exact ⟨offsets, rfl⟩

/-- As long as the entries are read as the directory has them, the loop makes progress. -/
theorem Progress.run (h : Progress image (text mountpoint) t 0 m) (hk : Importable image k)
    (hM : EmptyDir t (text mountpoint) k) (hi : i ≤ k)
    (hsame : ∀ j < i, SameEntry (readFrom image j) (rootBytes image) (32 * j)) :
    ∃ m', Progress image (text mountpoint) t i m' ∧
      importEntries (imageDevice image) (bootOf image) mountpoint
        (entryOffsets (bootOf image).clusterSize) m =
      importEntries (imageDevice image) (bootOf image) mountpoint
        (offsetsFrom (bootOf image).clusterSize i) m' := by
  induction i with
  | zero => exact ⟨m, h, by rw [offsetsFrom_zero]⟩
  | succ i ih =>
    obtain ⟨m₁, h₁, he⟩ := ih (by omega) fun j hj => hsame j (by omega)
    obtain ⟨m₂, hround, h₂⟩ := h₁.step hk hM (by omega) (hsame i (by omega))
    have hfits := hk.fits
    refine ⟨m₂, h₂, ?_⟩
    rw [he, offsetsFrom_of_le (by omega), importEntries, hround]
    rfl

theorem ensureMountpoint_of_exists (h : exists' m.vfs mountpoint = true) :
    ensureMountpoint mountpoint m = (true, m) := by
  simp [ensureMountpoint, h]

theorem fat32Mount_of_importable (h : Inv m.vfs) (hk : Importable image k)
    (hM : EmptyDir m.vfs (text mountpoint) k) :
    ∃ m₀, Progress image (text mountpoint) m.vfs 0 m₀ ∧
      fat32Mount (imageDevice image) mountpoint m =
        (true, (importEntries (imageDevice image) (bootOf image) mountpoint
          (entryOffsets (bootOf image).clusterSize) m₀).write "fat32: mounted\n") := by
  obtain ⟨node, hn, -⟩ := hM.dir
  obtain ⟨i, hfind, -⟩ := find_of_node_eq_some hn
  have hexists : exists' m.vfs mountpoint = true := by rw [exists', hfind]; rfl
  have hens : ensureMountpoint mountpoint (bootRead (imageDevice image) m) =
      (true, bootRead (imageDevice image) m) := ensureMountpoint_of_exists hexists
  have hne : (bootOf image).bytesPerSector ≠ 0 := fun h0 => by
    have h512 := hk.sectorSize
    rw [h0] at h512
    exact absurd h512 (by decide)
  refine ⟨rootRead (imageDevice image) (bootOf image) mountpoint
    (bootRead (imageDevice image) m), ⟨?_, fun j hj => ?_, ?_, fun p _ => ?_, fun j hj => ?_⟩, ?_⟩
  · rw [rootRead, hens]
    exact h
  · rw [rootRead, hens]
    exact clusterBuf_blockRead hk.sectorSize hk.root _ hj
  · rw [rootRead, hens]
    rfl
  · rw [rootRead, hens]
    rfl
  · exact absurd hj (Nat.not_lt_zero j)
  · rw [fat32Mount_eq_mountBoot mountpoint rfl rfl, bootOf_image,
      mountBoot_of_accepted (m := bootRead (imageDevice image) m) hne (.inl hexists)
        hk.clusterSize_le, blockRead_image_fst, if_pos rfl]

theorem Progress.imported (h : Progress image M t k m) : Imported image k M t (true, m) where
  ok := rfl
  files := h.files
  only p hp := by
    by_cases hfile : ∃ j < k, p = filePath image M j
    · exact .inr hfile
    · rw [h.old p fun j hj he => hfile ⟨j, hj, he⟩] at hp
      exact .inl hp

/-- What the loop does once it leaves the directory: it ends, or it reads another entry. -/
theorem Progress.leave (h : Progress image M t i m) (mountpoint : List UInt8) :
    ∃ m', Progress image M t i m' ∧
      match nextEntry image i with
      | none => importEntries (imageDevice image) (bootOf image) mountpoint
          (offsetsFrom (bootOf image).clusterSize i) m = m'
      | some offset => ∃ rest, importEntries (imageDevice image) (bootOf image) mountpoint
            (offsetsFrom (bootOf image).clusterSize i) m =
          importEntries (imageDevice image) (bootOf image) mountpoint (offset :: rest) m' := by
  obtain ⟨m', hv, hb, hnext⟩ := importEntries_skip (imageDevice image) (bootOf image) mountpoint
    (offsetsFrom (bootOf image).clusterSize i) m
  have hfind : ((offsetsFrom (bootOf image).clusterSize i).find? fun offset =>
      entryKind (m.buffers .clusterBuf) offset ≠ .skipped) = nextEntry image i :=
    List.find?_congr fun offset hmem => by
      rw [(sameEntry_of_agree h.buffer (add_le_of_mem_offsetsFrom hmem)).kind]
  rw [hfind] at hnext
  refine ⟨m', ?_, hnext⟩
  obtain ⟨hinv, hbuf, hcard, hold, hfiles⟩ := h
  rw [← hv] at hinv hcard
  rw [← hb] at hbuf
  exact ⟨hinv, hbuf, hcard, by rwa [hv], by rwa [hv]⟩

theorem spec_nextEntry {offset : ℕ} (h : offset ∈ nextEntry image i) :
    offset + 32 ≤ (bootOf image).clusterSize ∧ entryKind (readFrom image i) offset ≠ .skipped := by
  have hfind : (offsetsFrom (bootOf image).clusterSize i).find? (fun offset =>
      decide (entryKind (readFrom image i) offset ≠ .skipped)) = some offset := h
  have hkind := List.find?_some hfind
  exact ⟨add_le_of_mem_offsetsFrom (List.mem_of_find?_eq_some hfind), of_decide_eq_true hkind⟩

theorem mount_ends (h : Inv m.vfs) (hk : Importable image k)
    (hM : EmptyDir m.vfs (text mountpoint) k) (hi : i ≤ k) (hread : ReadsUpTo image i)
    (hend : ∀ offset ∈ nextEntry image i, entryKind (readFrom image i) offset = .last) :
    ∃ m', Progress image (text mountpoint) m.vfs i m' ∧
      fat32Mount (imageDevice image) mountpoint m = (true, m') := by
  obtain ⟨m₀, h₀, he⟩ := fat32Mount_of_importable h hk hM
  obtain ⟨m₁, h₁, hrun⟩ := h₀.run hk hM hi hread
  obtain ⟨m₂, h₂, hnext⟩ := h₁.leave mountpoint
  rw [he, hrun]
  cases hn : nextEntry image i with
  | none =>
    rw [hn] at hnext
    rw [hnext]
    exact ⟨m₂.write "fat32: mounted\n", ⟨h₂.inv, h₂.buffer, h₂.card, h₂.old, h₂.files⟩, rfl⟩
  | some offset =>
    rw [hn] at hnext
    obtain ⟨rest, hrest⟩ := hnext
    have hlast : entryKind (m₂.buffers .clusterBuf) offset = .last := by
      rw [(sameEntry_of_agree h₂.buffer (spec_nextEntry hn).1).kind, hend offset hn]
    rw [hrest, importEntries_of_last _ _ _ hlast]
    exact ⟨(m₂.touch .clusterBuf [offset]).write "fat32: mounted\n",
      ⟨h₂.inv, h₂.buffer, h₂.card, h₂.old, h₂.files⟩, rfl⟩

/-- A volume whose directory is read undisturbed is imported. -/
theorem imported_of_undisturbed (h : Inv m.vfs) (hk : Importable image k)
    (hM : EmptyDir m.vfs (text mountpoint) k) (hu : Undisturbed image k) :
    Imported image k (text mountpoint) m.vfs (fat32Mount (imageDevice image) mountpoint m) := by
  obtain ⟨m', hp, he⟩ := mount_ends h hk hM le_rfl hu.entries hu.ended
  rw [he]
  exact hp.imported

/-! ## Disturbed directories -/

theorem not_imported_of_ends (h : Inv m.vfs) (hk : Importable image k)
    (hM : EmptyDir m.vfs (text mountpoint) k) (hi : i < k) (hread : ReadsUpTo image i)
    (hend : ∀ offset ∈ nextEntry image i, entryKind (readFrom image i) offset = .last) :
    ¬ Imported image k (text mountpoint) m.vfs
      (fat32Mount (imageDevice image) mountpoint m) := by
  obtain ⟨m', hp, he⟩ := mount_ends h hk hM hi.le hread hend
  rw [he]
  intro himp
  obtain ⟨node, hn, -⟩ := himp.files i hi
  have hnew : ∀ j < i, filePath image (text mountpoint) i ≠ filePath image (text mountpoint) j := by
    intro j hj hpath
    have hname : entryName image i = entryName image j := by simpa [filePath] using hpath
    exact absurd (hk.distinct i hi j (by omega) hname) (by omega)
  have hlegal := (hk.plain i hi).name
  rw [hp.old _ hnew, filePath,
    hM.empty (entryName image i) hlegal.1 fun hmem => (hlegal.2 _ hmem).2 rfl] at hn
  cases hn

theorem Progress.stray (h : Progress image (text mountpoint) t i m) (hk : Importable image k)
    (hM : EmptyDir t (text mountpoint) k)
    (hroom : (Slots.usedSlots view t.nodes).card + i < maxNodes) {offset : ℕ}
    (hkind : entryKind (m.buffers .clusterBuf) offset = .empty ∨
      entryKind (m.buffers .clusterBuf) offset = .file) {name : List UInt8}
    (htext : text (shortName (m.buffers .clusterBuf) offset) = name) (hname : LegalName name)
    (hnew : ∀ j < i, name ≠ entryName image j) :
    ∃ m' contents,
      importEntry (imageDevice image) (bootOf image) mountpoint offset m = (true, m') ∧
      Added m.vfs m'.vfs (text mountpoint ++ slash :: name) contents := by
  have hshort : name.length ≤ 12 := by
    rw [← htext]
    have hpre : text (shortName (m.buffers .clusterBuf) offset) <+:
        shortName (m.buffers .clusterBuf) offset := prefix_text _
    exact hpre.length_le.trans (length_shortName_le (m.buffers .clusterBuf) offset)
  have hmax : (bootOf image).bytesPerSector.toNat ≤ 4096 := by
    rw [hk.sectorSize]
    decide
  exact importEntry_of_creatable (imageDevice image) h.inv hM.length_le htext
    (hkind.imp_right fun hfile => ⟨hfile, hmax⟩) (h.creatable hM hname hshort hnew hroom)

theorem ne_append_slash (M rest : List UInt8) : M ≠ M ++ slash :: rest := by
  intro h
  have hlen := congrArg List.length h
  simp at hlen

theorem added_stays {name contents : List UInt8}
    (hadd : Added t m.vfs (text mountpoint ++ slash :: name) contents)
    (hM : (t.node (text mountpoint)).isSome) (dev : Device) (boot : Boot) (rest : List ℕ) :
    ∃ node, (importEntries dev boot mountpoint rest m).vfs.node
      (text mountpoint ++ slash :: name) = some node ∧ node.type = .file := by
  have hmount : Mounting (text mountpoint) m.vfs m.vfs := by
    refine ⟨hadd.inv, ?_, .refl ..⟩
    rwa [hadd.node _ (ne_append_slash _ _)]
  have hfinal := hmount.importEntries dev boot rest
  obtain ⟨node, hnode, hfile, -⟩ := hadd.file
  exact ⟨node, hfinal.confined.node hadd.inv hfinal.inv hnode, hfile⟩

/-- A file that is read where the loop leaves the directory is a new node, unless its name
is that of a file of the directory. -/
theorem not_imported_of_stray (h : Inv m.vfs) (hk : Importable image k)
    (hM : EmptyDir m.vfs (text mountpoint) k)
    (hroom : (Slots.usedSlots view m.vfs.nodes).card + k < maxNodes) (hi : i ≤ k)
    (hread : ReadsUpTo image i) {offset : ℕ} (hnext : offset ∈ nextEntry image i)
    (hlast : entryKind (readFrom image i) offset ≠ .last)
    (hname : LegalName (text (shortName (readFrom image i) offset)))
    (hnew : ∀ j < k, text (shortName (readFrom image i) offset) ≠ entryName image j) :
    ¬ Imported image k (text mountpoint) m.vfs
      (fat32Mount (imageDevice image) mountpoint m) := by
  obtain ⟨m₀, h₀, he⟩ := fat32Mount_of_importable h hk hM
  obtain ⟨m₁, h₁, hrun⟩ := h₀.run hk hM hi hread
  obtain ⟨m₂, h₂, hleave⟩ := h₁.leave mountpoint
  rw [show nextEntry image i = some offset from hnext] at hleave
  obtain ⟨rest, hrest⟩ := hleave
  obtain ⟨hin, hskip⟩ := spec_nextEntry hnext
  have hsame : SameEntry (m₂.buffers .clusterBuf) (readFrom image i) offset :=
    sameEntry_of_agree h₂.buffer hin
  have hkind : entryKind (m₂.buffers .clusterBuf) offset = .empty ∨
      entryKind (m₂.buffers .clusterBuf) offset = .file := by
    rw [hsame.kind]
    cases hc : entryKind (readFrom image i) offset
    · exact absurd hc hlast
    · exact absurd hc hskip
    · exact .inl rfl
    · exact .inr rfl
  generalize hn : text (shortName (readFrom image i) offset) = name at hname hnew
  rw [← hsame.name] at hn
  obtain ⟨m₃, contents, hround, hadd⟩ := h₂.stray hk hM (by omega) hkind hn hname
    fun j hj => hnew j (by omega)
  obtain ⟨dir, hdir, -⟩ := h₂.mounted hM
  obtain ⟨node, hnode, -⟩ := added_stays hadd (Option.isSome_iff_exists.mpr ⟨dir, hdir⟩)
    (imageDevice image) (bootOf image) rest
  rw [he, hrun, hrest, importEntries, hround]
  intro himp
  rcases himp.only _ (Option.isSome_iff_exists.mpr ⟨node, hnode⟩) with hold | ⟨j, hj, hfile⟩
  · rw [hM.empty name hname.1 fun hmem => (hname.2 _ hmem).2 rfl] at hold
    cases hold
  · exact hnew j hj (by simpa [filePath] using hfile)

theorem not_imported_of_not_undisturbed (h : Inv m.vfs) (hk : Importable image k)
    (hM : EmptyDir m.vfs (text mountpoint) k)
    (hroom : (Slots.usedSlots view m.vfs.nodes).card + k < maxNodes) (hecho : ¬ Echoes image k)
    (hu : ¬ Undisturbed image k) :
    ¬ Imported image k (text mountpoint) m.vfs
      (fat32Mount (imageDevice image) mountpoint m) := by
  obtain ⟨i, hi⟩ := exists_leavesAt image k
  by_cases hend : ∀ offset ∈ nextEntry image i, entryKind (readFrom image i) offset = .last
  · rcases Nat.lt_or_eq_of_le hi.le with hlt | rfl
    · exact not_imported_of_ends h hk hM hlt hi.before hend
    · exact absurd ⟨hi.before, hend⟩ hu
  · push Not at hend
    obtain ⟨offset, hnext, hlast⟩ := hend
    have hname : LegalName (text (shortName (readFrom image i) offset)) := by
      by_contra hn
      exact hecho ⟨i, hi, offset, hnext, hlast, .inl hn⟩
    have hnew : ∀ j < k, text (shortName (readFrom image i) offset) ≠ entryName image j := by
      intro j hj heq
      exact hecho ⟨i, hi, offset, hnext, hlast, .inr ⟨j, hj, heq⟩⟩
    exact not_imported_of_stray h hk hM hroom hi.le hi.before hnext hlast hname hnew

/-- For every volume of plain files, every empty mountpoint and every reachable state with
enough free nodes: the import is right if the directory is read undisturbed. It is right only
then, unless a node is wanting or the data of a file echoes the directory. -/
theorem fat32Mount_imports (h : Reachable m.vfs) (hk : Importable image k)
    (hM : EmptyDir m.vfs (text mountpoint) k) :
    (Undisturbed image k → Imported image k (text mountpoint) m.vfs
      (fat32Mount (imageDevice image) mountpoint m)) ∧
    (¬ Echoes image k → (Slots.usedSlots view m.vfs.nodes).card + k < maxNodes →
      Imported image k (text mountpoint) m.vfs (fat32Mount (imageDevice image) mountpoint m) →
      Undisturbed image k) := by
  constructor
  · exact imported_of_undisturbed h.inv hk hM
  · intro hecho hroom himp
    by_contra hu
    exact not_imported_of_not_undisturbed h.inv hk hM hroom hecho hu himp

/-! ## Two volumes -/

/-- The root directory holds the empty `B` and then `A`, of one byte in cluster 3. -/
def emptyFirst : Mem UInt8 :=
  sparseImage (smallBoot ++ [(524, 0xff), (525, 0xff), (526, 0xff), (527, 0x0f)] ++
    smallEntry 0 'B'.toUInt8 0 0 ++ smallEntry 1 'A'.toUInt8 3 1 ++ [(1536, 'x'.toUInt8)])

theorem chains_of_one_cluster (hpos : 0 < (bootOf image).clusterSize)
    (h : ∀ j < k, entrySize image j ≤ (bootOf image).clusterSize ∧
      (entrySize image j ≠ 0 → InVolume image (entryStart image j))) :
    ∀ j < k, ∀ i, i * (bootOf image).clusterSize < min (entrySize image j) 4096 →
      InVolume image (chain image (entryStart image j) i) := by
  intro j hj i hi
  obtain ⟨hle, hin⟩ := h j hj
  have h0 : i = 0 := by
    by_contra hne
    have hmul := Nat.le_mul_of_pos_left (bootOf image).clusterSize (Nat.pos_of_ne_zero hne)
    omega
  subst h0
  exact hin (by omega)

theorem importable_twoFiles : Importable twoFiles 2 where
  sectorSize := by decide +kernel
  clusterSize_le := by decide +kernel
  root := by decide +kernel
  fits := by decide +kernel
  plain := by decide +kernel
  distinct := by decide +kernel
  ended := by decide +kernel
  chains := chains_of_one_cluster (by decide +kernel) (by decide +kernel)

theorem importable_emptyFirst : Importable emptyFirst 2 where
  sectorSize := by decide +kernel
  clusterSize_le := by decide +kernel
  root := by decide +kernel
  fits := by decide +kernel
  plain := by decide +kernel
  distinct := by decide +kernel
  ended := by decide +kernel
  chains := chains_of_one_cluster (by decide +kernel) (by decide +kernel)

theorem emptyDir_tmp : EmptyDir (init staticTable) (text (ascii "/tmp")) 2 where
  dir := by
    have h : ((init staticTable).node (text (ascii "/tmp"))).map Node.type = some .dir := by
      decide +kernel
    exact Option.map_eq_some_iff.mp h
  ne_root := by decide +kernel
  length_le := by decide +kernel
  empty name _ _ := by
    have h : ∀ i, ((init staticTable).nodes i).used = true →
        ¬ ascii "/tmp/" <+: ((init staticTable).nodes i).name := by
      decide +kernel
    have htmp : text (ascii "/tmp") ++ [slash] = ascii "/tmp/" := by decide
    rw [Table.node, Slots.lookup_eq_none_iff]
    intro i hi hname
    rw [view_used] at hi
    rw [view_key] at hname
    refine h i hi ⟨name, ?_⟩
    rw [hname, ← htmp, List.append_assoc, List.singleton_append]
  room := by decide +kernel

/-- The end mark is read from the cluster of `A`. -/
theorem fat32Mount_imports_emptyFirst :
    let m := Mount.start (init staticTable) fun _ _ => 0
    Imported emptyFirst 2 (text (ascii "/tmp")) m.vfs
      (fat32Mount (imageDevice emptyFirst) (ascii "/tmp") m) := by
  intro m
  have h : Reachable m.vfs := reachable_start fun _ _ => 0
  have hM : EmptyDir m.vfs (text (ascii "/tmp")) 2 := by
    rw [Mount.vfs_start]
    exact emptyDir_tmp
  exact (fat32Mount_imports h importable_emptyFirst hM).1
    ⟨by unfold ReadsUpTo; decide +kernel, by decide +kernel⟩

/-- The mount overwrites the directory with the cluster of `A` and never reads the entry
of `B`. -/
theorem not_imported_twoFiles :
    let m := Mount.start (init staticTable) fun _ _ => 0
    Importable twoFiles 2 ∧ Reachable m.vfs ∧ EmptyDir m.vfs (text (ascii "/tmp")) 2 ∧
      ¬ Imported twoFiles 2 (text (ascii "/tmp")) m.vfs
        (fat32Mount (imageDevice twoFiles) (ascii "/tmp") m) := by
  intro m
  have h : Reachable m.vfs := reachable_start fun _ _ => 0
  have hM : EmptyDir m.vfs (text (ascii "/tmp")) 2 := by
    rw [Mount.vfs_start]
    exact emptyDir_tmp
  refine ⟨importable_twoFiles, h, hM, ?_⟩
  exact not_imported_of_ends h.inv importable_twoFiles hM (i := 1) (by decide)
    (by unfold ReadsUpTo; decide +kernel) (by decide +kernel)

end Wnu.Fat32
