import Wnu.Fat32.Mount

/-! # Names and paths of imported files

Each copying loop of the mount writes a list of bytes at a place of one array and
leaves the rest of the state alone. Put together, `name` holds the decoded short
name and `path` the mountpoint, a slash and the name, cut to 63 bytes.
-/

namespace Wnu.Fat32

open Text Memory Runs Vfs

/-- The step writes a list of bytes into an array and does nothing else but access arrays. -/
structure Wrote (b : Buffer) (p : ℕ) (s : List UInt8) (m m' : Mount) : Prop where
  vfs : m'.vfs = m.vfs
  console : m'.console = m.console
  reads : m'.reads = m.reads
  buffers : m'.buffers =
    Function.update m.buffers b (copyLoop (m.buffers b) p (ofList s 0) s.length)

def field (p : Mem UInt8) (i n : ℕ) : List UInt8 :=
  (window (fun j => p (i + j)) n).takeWhile (· ≠ space)

def shortName (p : Mem UInt8) (offset : ℕ) : List UInt8 :=
  field p offset 8 ++
    (if p (offset + 8) = space then [] else dot :: field p (offset + 8) 3)

/-- The path of an imported file, cut to the room that `path` has. -/
def joined (mountpoint name : List UInt8) : List UInt8 :=
  (text mountpoint ++ slash :: text name).take (63)

theorem size_path : Buffer.path.size = 64 := rfl

variable {b : Buffer} {p : ℕ} {s r : List UInt8} {m m' m'' : Mount}

theorem Wrote.nil (b : Buffer) (p : ℕ) (m : Mount) : Wrote b p [] m m :=
  ⟨rfl, rfl, rfl, by simp [copyLoop]⟩

theorem Wrote.trans {q : ℕ} (h : Wrote b p s m m') (h' : Wrote b q r m' m'')
    (hq : q = p + s.length) : Wrote b p (s ++ r) m m'' where
  vfs := h'.vfs.trans h.vfs
  console := h'.console.trans h.console
  reads := h'.reads.trans h.reads
  buffers := by
    rw [h'.buffers, hq, h.buffers, Function.update_idem, Function.update_self,
      copyLoop_ofList_append]

theorem wrote_store (b : Buffer) (p : ℕ) (x : UInt8) (m : Mount) :
    Wrote b p [x] m (m.store b p x) :=
  ⟨rfl, rfl, rfl, by simp [Mount.store, copyLoop, ofList]⟩

theorem Wrote.store {q : ℕ} (h : Wrote b p s m m') (hq : q = p + s.length) (x : UInt8) :
    Wrote b p (s ++ [x]) m (m'.store b q x) := h.trans (wrote_store b q x m') hq

theorem Wrote.touch (h : Wrote b p s m m') (b' : Buffer) (is : List ℕ) :
    Wrote b p s m (m'.touch b' is) := ⟨h.vfs, h.console, h.reads, h.buffers⟩

theorem Wrote.of_touch {b' : Buffer} {is : List ℕ} (h : Wrote b p s (m.touch b' is) m') :
    Wrote b p s m m' := ⟨h.vfs, h.console, h.reads, h.buffers⟩

theorem Wrote.buffers_of_ne (h : Wrote b p s m m') {b' : Buffer} (hb : b' ≠ b) :
    m'.buffers b' = m.buffers b' := by
  rw [h.buffers, Function.update_of_ne hb]

theorem Wrote.text_window (h : Wrote b 0 (s ++ [0]) m m') {n : ℕ} (hn : s.length < n) :
    text (window (m'.buffers b) n) = text s := by
  have hlen : (s ++ [0]).length ≤ n := by simpa using Nat.succ_le_of_lt hn
  obtain ⟨r, hr⟩ := window_copyLoop_ofList (m.buffers b) (s ++ [0]) 0 hlen
  rw [h.buffers, Function.update_self, hr, List.append_assoc, List.singleton_append,
    text_append_nul]

/-! ## Names -/

theorem field_succ (q : Mem UInt8) (i n : ℕ) :
    field q i (n + 1) = if q i = space then [] else q i :: field q (i + 1) n := by
  rw [field, window_from_succ, List.takeWhile_cons]
  by_cases h : q i = space <;> simp [h, field]

theorem wrote_copyPart (base n i npos : ℕ) (m : Mount) :
    (copyPart base n i npos m).1 = npos + (field (m.buffers .clusterBuf) (base + i) n).length ∧
      Wrote .name npos (field (m.buffers .clusterBuf) (base + i) n) m
        (copyPart base n i npos m).2 := by
  induction n generalizing i npos m with
  | zero => exact ⟨rfl, .nil ..⟩
  | succ n ih =>
    rw [copyPart, field_succ]
    by_cases hc : m.buffers .clusterBuf (base + i) = space
    · simp only [hc, if_true, List.length_nil, Nat.add_zero, true_and]
      exact (Wrote.nil ..).touch _ _
    · simp only [hc, if_false, List.length_cons]
      set m₁ := (m.touch .clusterBuf [base + i]).store .name npos (m.buffers .clusterBuf (base + i))
        with hm₁
      have hw : Wrote .name npos [m.buffers .clusterBuf (base + i)] m m₁ :=
        (wrote_store ..).of_touch
      obtain ⟨hp, hs⟩ := ih (i + 1) (npos + 1) m₁
      rw [hw.buffers_of_ne (by decide), ← Nat.add_assoc] at hp hs
      exact ⟨by rw [hp]; omega, hw.trans hs rfl⟩

theorem wrote_decodeName (offset : ℕ) (m : Mount) :
    Wrote .name 0 (shortName (m.buffers .clusterBuf) offset ++ [0]) m (decodeName offset m) := by
  obtain ⟨hp, hw⟩ := wrote_copyPart offset 8 0 0 m
  rw [Nat.add_zero] at hp hw
  rw [Nat.zero_add] at hp
  unfold decodeName shortName
  generalize copyPart offset 8 0 0 m = r at hp hw ⊢
  obtain ⟨npos, m₁⟩ := r
  obtain rfl := hp
  simp only at hw ⊢
  rw [hw.buffers_of_ne (show Buffer.clusterBuf ≠ .name by decide)]
  by_cases hext : m.buffers .clusterBuf (offset + 8) = space
  · simp only [hext, ne_eq, not_true_eq_false, if_false, if_true, List.append_nil]
    exact (hw.touch _ _).store (Nat.zero_add _).symm 0
  · simp only [hext, ne_eq, not_false_eq_true, if_true, if_false]
    have hdot := (hw.touch .clusterBuf [offset + 8]).store (Nat.zero_add _).symm dot
    obtain ⟨hp', hw'⟩ := wrote_copyPart (offset + 8) 3 0
      ((field (m.buffers .clusterBuf) offset 8).length + 1)
      ((m₁.touch .clusterBuf [offset + 8]).store .name
          (field (m.buffers .clusterBuf) offset 8).length dot)
    rw [hdot.buffers_of_ne (by decide), Nat.add_zero] at hp' hw'
    have hall := hdot.trans hw' (by simp)
    have hend := hall.store (q := (field (m.buffers .clusterBuf) offset 8).length + 1 +
      (field (m.buffers .clusterBuf) (offset + 8) 3).length) (by simp; omega) 0
    rw [hp']
    simpa only [List.append_assoc, List.cons_append, List.nil_append] using hend

theorem length_field_le (q : Mem UInt8) (i n : ℕ) : (field q i n).length ≤ n := by
  have h :=
    (List.takeWhile_prefix (p := (· ≠ space)) (l := window (fun j => q (i + j)) n)).length_le
  rwa [length_window] at h

theorem length_shortName_le (q : Mem UInt8) (offset : ℕ) : (shortName q offset).length ≤ 12 := by
  have h8 := length_field_le q offset 8
  have h3 := length_field_le q (offset + 8) 3
  rw [shortName, List.length_append]
  split
  · simp only [List.length_nil]
    omega
  · simp only [List.length_cons]
    omega

/-! ## Paths -/

theorem room_succ (hp : p + 1 < Buffer.path.size) : 63 - p = 63 - (p + 1) + 1 := by
  rw [size_path] at hp
  omega

theorem room_eq_zero (hp : ¬ p + 1 < Buffer.path.size) : 63 - p = 0 := by
  rw [size_path] at hp
  omega

theorem wrote_copyMountpoint (mountpoint : List UInt8) (p : ℕ) (m : Mount) :
    (copyMountpoint mountpoint p m).1 = p + ((text mountpoint).take (63 - p)).length ∧
      Wrote .path p ((text mountpoint).take (63 - p)) m
        (copyMountpoint mountpoint p m).2 := by
  induction mountpoint generalizing p m with
  | nil => exact ⟨by simp [copyMountpoint], by simpa [copyMountpoint] using Wrote.nil ..⟩
  | cons c mountpoint ih =>
    rw [copyMountpoint]
    by_cases hc : c = 0
    · simp only [hc, ne_eq, not_true_eq_false, false_and, if_false, text_cons_zero, List.take_nil,
        List.length_nil, Nat.add_zero, true_and]
      exact .nil ..
    by_cases hp : p + 1 < Buffer.path.size
    · have hroom := room_succ hp
      obtain ⟨hi, hw⟩ := ih (p + 1) (m.store .path p c)
      simp only [hc, hp, ne_eq, not_false_eq_true, true_and, if_true, text_cons_of_ne hc, hroom,
        List.take_succ_cons, List.length_cons]
      exact ⟨by rw [hi]; omega, (wrote_store ..).trans hw rfl⟩
    · have hfull := room_eq_zero hp
      simp only [hp, and_false, if_false, hfull, List.take_zero, List.length_nil, Nat.add_zero,
        true_and]
      exact .nil ..

theorem wrote_copyName (n i p : ℕ) (m : Mount) (hn : 63 - p ≤ n) :
    (copyName n i p m).1 =
        p + ((text (window (fun j => m.buffers .name (i + j)) n)).take (63 - p)).length ∧
      Wrote .path p ((text (window (fun j => m.buffers .name (i + j)) n)).take (63 - p)) m
        (copyName n i p m).2 := by
  induction n generalizing i p m with
  | zero => exact ⟨by simp [copyName], by simpa [copyName] using Wrote.nil ..⟩
  | succ n ih =>
    rw [copyName, window_from_succ]
    generalize hc' : m.buffers .name i = c
    by_cases hc : c = 0
    · simp only [hc, ne_eq, not_true_eq_false, false_and, if_false, text_cons_zero, List.take_nil,
        List.length_nil, Nat.add_zero, true_and]
      exact (Wrote.nil ..).touch _ _
    by_cases hp : p + 1 < Buffer.path.size
    · have hroom := room_succ hp
      have hstep : Wrote .path p [c] m ((m.touch .name [i]).store .path p c) :=
        (wrote_store ..).of_touch
      obtain ⟨hi, hs⟩ := ih (i + 1) (p + 1) ((m.touch .name [i]).store .path p c) (by omega)
      rw [hstep.buffers_of_ne (by decide)] at hi hs
      simp only [hc, hp, ne_eq, not_false_eq_true, true_and, if_true, text_cons_of_ne hc, hroom,
        List.take_succ_cons, List.length_cons]
      exact ⟨by rw [hi]; omega, hstep.trans hs rfl⟩
    · have hfull := room_eq_zero hp
      simp only [hp, and_false, if_false, hfull, List.take_zero, List.length_nil, Nat.add_zero,
        true_and]
      exact (Wrote.nil ..).touch _ _

/-- The loop ends before `path` is full, and a larger bound changes nothing. -/
theorem copyName_fuel_irrelevant {n n' p : ℕ} (hp : p < Buffer.path.size)
    (hn : Buffer.path.size ≤ p + n) (hn' : Buffer.path.size ≤ p + n') (i : ℕ) (m : Mount) :
    copyName n i p m = copyName n' i p m := by
  induction n generalizing n' p i m with
  | zero => omega
  | succ n ih =>
    obtain ⟨n', rfl⟩ : ∃ k, n' = k + 1 := ⟨n' - 1, by omega⟩
    by_cases hroom : p + 1 < Buffer.path.size
    · have hnext (i : ℕ) (m : Mount) : copyName n i (p + 1) m = copyName n' i (p + 1) m :=
        ih hroom (by omega) (by omega) i m
      simp only [copyName, hnext]
    · simp only [copyName, hroom, and_false, if_false]

theorem wrote_joinPath (mountpoint : List UInt8) (m : Mount) :
    Wrote .path 0 (joined mountpoint (window (m.buffers .name) 64) ++ [0]) m
      (joinPath mountpoint m) := by
  obtain ⟨hp, hw⟩ := wrote_copyMountpoint mountpoint 0 m
  rw [Nat.sub_zero] at hp hw
  rw [Nat.zero_add] at hp
  unfold joinPath joined
  generalize copyMountpoint mountpoint 0 m = r at hp hw ⊢
  obtain ⟨p, m₁⟩ := r
  obtain rfl := hp
  simp only at hw ⊢
  generalize hM : text mountpoint = M at hw ⊢
  generalize hN : text (window (m.buffers .name) 64) = N
  have hlen : (M.take 63).length = min 63 M.length := List.length_take
  by_cases hroom : (M.take 63).length + 1 < Buffer.path.size
  · have hslash := hw.store (Nat.zero_add _).symm slash
    obtain ⟨hp', hw'⟩ := wrote_copyName Buffer.path.size 0 ((M.take 63).length + 1)
      (m₁.store .path (M.take 63).length slash) (by rw [size_path]; omega)
    rw [hslash.buffers_of_ne (by decide)] at hp' hw'
    simp only [hroom, if_true]
    simp only [Nat.zero_add, size_path, hN] at hp' hw' hroom ⊢
    have hM63 : M.take 63 = M := List.take_of_length_le (by omega)
    have hall : (M ++ slash :: N).take 63 =
        M.take 63 ++ [slash] ++ N.take (63 - ((M.take 63).length + 1)) := by
      have hsub : 63 - M.length = 63 - (M.length + 1) + 1 := by
        rw [hM63] at hroom
        omega
      rw [hM63, List.take_append, hM63, hsub, List.take_succ_cons, List.append_assoc,
        List.singleton_append]
    rw [hall]
    exact (hslash.trans hw' (by simp)).store (by rw [hp']; simp; omega) 0
  · obtain ⟨hp', hw'⟩ := wrote_copyName Buffer.path.size 0 (M.take 63).length m₁
      (by rw [size_path]; omega)
    rw [hw.buffers_of_ne (by decide)] at hp' hw'
    simp only [hroom, if_false]
    simp only [Nat.zero_add, size_path, hN] at hp' hw' hroom ⊢
    have hfull : 63 - (M.take 63).length = 0 := by omega
    have hall : (M ++ slash :: N).take 63 = M.take 63 ++ N.take (63 - (M.take 63).length) := by
      rw [hfull, List.take_zero, List.append_nil, List.take_append_of_le_length (by omega)]
    rw [hall]
    exact (hw.trans hw' (by simp)).store (by rw [hp']; simp) 0

theorem length_joined_lt (mountpoint name : List UInt8) :
    (joined mountpoint name).length < 64 := by
  rw [joined, List.length_take]
  omega

@[simp] theorem text_joined (mountpoint name : List UInt8) :
    text (joined mountpoint name) = joined mountpoint name := by
  apply text_eq_self
  intro c hc
  have hmem := List.mem_of_mem_take hc
  simp only [List.mem_append, List.mem_cons] at hmem
  rcases hmem with h | rfl | h
  · exact ne_zero_of_mem_text h
  · exact slash_ne_zero
  · exact ne_zero_of_mem_text h

theorem text_pathString_joinPath (mountpoint : List UInt8) (m : Mount) :
    text (joinPath mountpoint m).pathString = joined mountpoint (window (m.buffers .name) 64) := by
  rw [← text_joined]
  exact (wrote_joinPath mountpoint m).text_window (length_joined_lt _ _)

/-! ## Entries -/

inductive EntryKind
  | last
  | skipped
  | empty
  | file
  deriving DecidableEq

def entryKind (q : Mem UInt8) (offset : ℕ) : EntryKind :=
  if q offset = 0x00 then .last
  else if q offset = 0xe5 then .skipped
  else if q (offset + 11) &&& 0x08 ≠ 0 then .skipped
  else if q (offset + 11) &&& 0x0f ≠ 0 then .skipped
  else if filesize q offset = 0 then .empty
  else .file

def parsed (offset : ℕ) (m : Mount) : Mount :=
  (decodeName offset ((m.touch .clusterBuf [offset]).touch .clusterBuf [offset + 11])).touch
    .clusterBuf [offset + 20, offset + 21, offset + 26, offset + 27, offset + 28, offset + 29,
      offset + 30, offset + 31]

theorem wrote_parsed (offset : ℕ) (m : Mount) :
    Wrote .name 0 (shortName (m.buffers .clusterBuf) offset ++ [0]) m (parsed offset m) :=
  ((wrote_decodeName offset
    ((m.touch .clusterBuf [offset]).touch .clusterBuf [offset + 11])).of_touch
    (m := m.touch .clusterBuf [offset])).of_touch.touch _ _

/-- One round of the loop over the directory, by the kind of its entry. -/
theorem importEntry_cases (dev : Device) (boot : Boot) (mountpoint : List UInt8) (offset : ℕ)
    (m : Mount) :
    match entryKind (m.buffers .clusterBuf) offset with
    | .last => importEntry dev boot mountpoint offset m = (false, m.touch .clusterBuf [offset])
    | .skipped => ∃ is, (∀ i ∈ is, i = offset ∨ i = offset + 11) ∧
        importEntry dev boot mountpoint offset m = (true, m.touch .clusterBuf is)
    | .empty => importEntry dev boot mountpoint offset m =
        (true, importEmpty mountpoint (parsed offset m))
    | .file => importEntry dev boot mountpoint offset m =
        (true, importFile dev boot mountpoint (startCluster (m.buffers .clusterBuf) offset)
          (filesize (m.buffers .clusterBuf) offset) (parsed offset m)) := by
  have hp : (decodeName offset
      ((m.touch .clusterBuf [offset]).touch .clusterBuf [offset + 11])).buffers .clusterBuf =
      m.buffers .clusterBuf := (wrote_decodeName offset _).buffers_of_ne (by decide)
  have htouch (b : Buffer) (is : List ℕ) (m : Mount) : (m.touch b is).buffers = m.buffers := rfl
  unfold entryKind importEntry
  simp only [htouch, hp]
  split_ifs
  · rfl
  · exact ⟨[offset], by simp, rfl⟩
  · exact ⟨[offset + 11, offset], by simp, rfl⟩
  · exact ⟨[offset + 11, offset], by simp, rfl⟩
  · rfl
  · rfl

def storeFile (mountpoint : List UInt8) (data : Mem UInt8) (size : UInt64) (m : Mount) : Mount :=
  let m := joinPath mountpoint m
  let (ok, vfs) := createFile m.vfs m.pathString
  let m := { m with vfs := vfs }
  if !ok then m.write "fat32: failed to create file in VFS\n"
  else
    let (ok, vfs) := writeFile m.vfs m.pathString (some data) size
    let m := { m with vfs := vfs }
    if !ok then m.write "fat32: failed to write file in VFS\n" else m

/-- The import of a file reads its clusters and passes `written` bytes of `file_buf`. -/
theorem importFile_eq (dev : Device) (boot : Boot) (mountpoint : List UInt8)
    (cluster size : UInt32) (m : Mount) :
    let r := readChain dev boot chainFuel cluster size.toNat 0 m
    importFile dev boot mountpoint cluster size m =
      if boot.bytesPerSector.toNat > Buffer.fatSectorBuf.size then
        m.write "fat32: unsupported sector size for FAT read\n"
      else storeFile mountpoint (r.2.buffers .fileBuf) (UInt64.ofNat r.1) r.2 := by
  intro r
  have hfile : (joinPath mountpoint r.2).buffers .fileBuf = r.2.buffers .fileBuf :=
    (wrote_joinPath mountpoint r.2).buffers_of_ne (by decide)
  rw [importFile, storeFile, ← hfile]

end Wnu.Fat32
