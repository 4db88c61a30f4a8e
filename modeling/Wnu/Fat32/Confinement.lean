import Wnu.Fat32.Chain
import Wnu.Fat32.Paths
import Wnu.Fat32.Volume
import Wnu.Vfs.Invariant

/-! # A mount stays under its mountpoint

Whatever the disk holds, a mount only adds nodes: the mountpoint, and files whose
paths are the mountpoint, a slash and more. A path that is cut before the slash is
the path of the mountpoint, which exists, so nothing is created for it. The file
that is written is the one that has just been created.
-/

namespace Wnu.Fat32

open Text Memory Vfs

/-- The nodes of the first table are in the second as they were, and every other node
of the second is the mountpoint or a file under it. -/
structure Confined (M : List UInt8) (t t' : Table) : Prop where
  kept : ∀ i, (t.nodes i).used → t'.nodes i = t.nodes i
  fresh : ∀ i, (t'.nodes i).used → ¬ (t.nodes i).used →
    ((t'.nodes i).name = M ∧ (t'.nodes i).type = .dir) ∨
      ((t'.nodes i).type = .file ∧ M ++ [slash] <+: (t'.nodes i).name)

variable {M : List UInt8} {t t' t'' : Table} {i : Fin maxNodes}

theorem Confined.refl (M : List UInt8) (t : Table) : Confined M t t :=
  ⟨fun _ _ => rfl, fun _ h hn => absurd h hn⟩

theorem Confined.trans (h : Confined M t t') (h' : Confined M t' t'') : Confined M t t'' where
  kept i hi := (h'.kept i (by rw [h.kept i hi]; exact hi)).trans (h.kept i hi)
  fresh i hi hn := by
    by_cases hu : (t'.nodes i).used
    · rw [h'.kept i hu]
      exact h.fresh i hu hn
    · exact h'.fresh i hi hu

theorem confined_of_update {node : Node} {n : UInt64} (hi : (t.nodes i).used = false)
    (hnode : (node.name = M ∧ node.type = .dir) ∨
      (node.type = .file ∧ M ++ [slash] <+: node.name)) :
    Confined M t ⟨Function.update t.nodes i node, n⟩ where
  kept j hj := Function.update_of_ne (fun he => by simp [he, hi] at hj) _ _
  fresh j hj hn := by
    rcases eq_or_ne j i with rfl | hji
    · simpa only [Function.update_self] using hnode
    · simp only [Function.update_of_ne hji] at hj
      exact absurd hj hn

theorem Confined.node (hc : Confined M t t') (h : Inv t) (h' : Inv t') {p : List UInt8}
    {node : Node} (hn : t.node p = some node) : t'.node p = some node := by
  obtain ⟨i, hu, hname, rfl⟩ := (node_eq_some_iff h.distinct).mp hn
  have hkept := hc.kept i hu
  exact (node_eq_some_iff h'.distinct).mpr ⟨i, (congrArg Node.used hkept).trans hu,
    (congrArg Node.name hkept).trans hname, hkept⟩

theorem Confined.node_isSome (hc : Confined M t t') (h : Inv t) (h' : Inv t') {p : List UInt8}
    (hp : (t.node p).isSome) : (t'.node p).isSome := by
  obtain ⟨node, hn⟩ := Option.isSome_iff_exists.mp hp
  exact Option.isSome_iff_exists.mpr ⟨node, hc.node h h' hn⟩

theorem Confined.absent (hc : Confined M t t') (h : Inv t) (h' : Inv t') {p : List UInt8}
    (hp : t'.node p = none) : t.node p = none := by
  apply Option.not_isSome_iff_eq_none.mp
  intro hsome
  have hkept := hc.node_isSome h h' hsome
  rw [hp] at hkept
  cases hkept

/-! ## Creating and writing -/

theorem confined_createDir (mountpoint : List UInt8) (t : Table) :
    Confined (text mountpoint) t (createDir t mountpoint).2 := by
  rcases createNode_cases .dir t mountpoint with ⟨-, he⟩ | ⟨c, i, hi, he⟩ <;>
    rw [createDir, he]
  · exact .refl ..
  · exact confined_of_update (Slots.used_eq_false_of_free hi) (.inl ⟨name_created c.length_lt, rfl⟩)

/-- A path that can be created while the mountpoint exists has not been cut before its slash. -/
theorem prefix_of_creatable {mountpoint name path : List UInt8} (h : Inv t)
    (hM : (t.node (text mountpoint)).isSome) (hpath : text path = joined mountpoint name)
    (c : Creatable t (text path)) : text mountpoint ++ [slash] <+: text path := by
  obtain ⟨node, hn⟩ := Option.isSome_iff_exists.mp hM
  have hlen : (text mountpoint).length < maxName := by
    rw [← (name_of_node hn).2]
    exact Node.length_name_lt (h.node _ _ hn).2.1
  rw [hpath, joined] at c ⊢
  by_cases hfull : (text mountpoint).length = 63
  · -- the path is the mountpoint
    have hcut := c.absent
    rw [List.take_append_of_le_length (by omega), List.take_of_length_le (by omega), hn] at hcut
    cases hcut
  · rw [maxName] at hlen
    obtain ⟨k, hk⟩ : ∃ k, 63 - (text mountpoint).length = k + 1 :=
      ⟨62 - (text mountpoint).length, by omega⟩
    rw [List.take_append, List.take_of_length_le (by omega), hk, List.take_succ_cons]
    exact ⟨(text name).take k, by simp⟩

theorem confined_createFile {mountpoint name path : List UInt8} (h : Inv t)
    (hM : (t.node (text mountpoint)).isSome) (hpath : text path = joined mountpoint name) :
    Confined (text mountpoint) t (createFile t path).2 := by
  rcases createNode_cases .file t path with ⟨-, he⟩ | ⟨c, i, hi, he⟩ <;> rw [createFile, he]
  · exact .refl ..
  · refine confined_of_update (Slots.used_eq_false_of_free hi) (.inr ⟨rfl, ?_⟩)
    rw [name_created c.length_lt]
    exact prefix_of_creatable h hM hpath c

theorem confined_write_createFile {mountpoint name path : List UInt8} (h : Inv t)
    (hM : (t.node (text mountpoint)).isSome) (hpath : text path = joined mountpoint name)
    (hok : (createFile t path).1 = true) (data : Option (Mem UInt8)) (size : UInt64) :
    Confined (text mountpoint) t (writeFile (createFile t path).2 path data size).2 := by
  have hcreate := confined_createFile h hM hpath
  have hinv : Inv (createFile t path).2 := h.exec (.createFile path)
  rcases createNode_cases .file t path with ⟨-, he⟩ | ⟨c, i, hi, he⟩ <;>
    rw [createFile, he] at hok hcreate hinv ⊢
  · cases hok
  have hfree : (t.nodes i).used = false := Slots.used_eq_false_of_free hi
  have hnode : (t.store i .file path).nodes i = t.created i .file path := Function.update_self ..
  rw [writeFile]
  rcases updateFile_cases (t.store i .file path) path data (Node.write size) with
    ⟨-, hw⟩ | ⟨-, d, j, -, hj, -, hw⟩ <;> rw [hw]
  · exact hcreate
  · obtain ⟨hju, hjn⟩ := hinv.find_eq_some_iff.mp hj
    have hji : j = i := by
      apply hinv.distinct j i hju (by rw [hnode]; rfl)
      rw [view_key, view_key, hjn, hnode, name_created c.length_lt]
    subst hji
    have hname : (t.created j .file path).name = text path := name_created c.length_lt
    rw [Table.modify, Table.store]
    simp only [Function.update_self, Function.update_idem]
    refine confined_of_update hfree (.inr ⟨rfl, ?_⟩)
    rw [name_of_keepsEntry (keepsEntry_write size d), hname]
    exact prefix_of_creatable h hM hpath c

/-! ## The mount -/

structure Mounting (M : List UInt8) (t₀ t : Table) : Prop where
  inv : Inv t
  mounted : (t.node M).isSome
  confined : Confined M t₀ t

variable {mountpoint : List UInt8} {t₀ : Table} {m : Mount}

theorem Mounting.step (h : Mounting M t₀ t) (hinv : Inv t') (hc : Confined M t t') :
    Mounting M t₀ t' :=
  ⟨hinv, hc.node_isSome h.inv hinv h.mounted, h.confined.trans hc⟩

theorem Mounting.importEmpty (h : Mounting (text mountpoint) t₀ m.vfs) :
    Mounting (text mountpoint) t₀ (importEmpty mountpoint m).vfs := by
  have hv := (wrote_joinPath mountpoint m).vfs
  have hp := text_pathString_joinPath mountpoint m
  simp only [Fat32.importEmpty]
  rw [hv]
  exact h.step (h.inv.exec (.createFile _)) (confined_createFile h.inv h.mounted hp)

theorem Mounting.importFile (dev : Device) (boot : Boot) (cluster size : UInt32)
    (h : Mounting (text mountpoint) t₀ m.vfs) :
    Mounting (text mountpoint) t₀ (importFile dev boot mountpoint cluster size m).vfs := by
  unfold Fat32.importFile
  split
  · exact h
  have hchain := (frame_readChain dev boot chainFuel cluster size.toNat 0 m).1
  generalize readChain dev boot chainFuel cluster size.toNat 0 m = r at hchain ⊢
  obtain ⟨written, m₁⟩ := r
  simp only at hchain ⊢
  have hv := (wrote_joinPath mountpoint m₁).vfs.trans hchain
  have hp := text_pathString_joinPath mountpoint m₁
  generalize joinPath mountpoint m₁ = m₂ at hv hp ⊢
  rw [← hv] at h
  have hcreate := confined_createFile h.inv h.mounted hp
  have hwrite := confined_write_createFile h.inv h.mounted hp
  have hinv : Inv (createFile m₂.vfs m₂.pathString).2 := h.inv.exec (.createFile _)
  cases hok : (createFile m₂.vfs m₂.pathString).1
  · exact h.step hinv hcreate
  · simp only [Bool.not_true, Bool.false_eq_true, if_false]
    have hfinal := h.step (hinv.exec (.writeFile m₂.pathString (some (m₂.buffers .fileBuf))
      (UInt64.ofNat written))) (hwrite hok _ _)
    split <;> exact hfinal

theorem Mounting.importEntry (dev : Device) (boot : Boot) (offset : ℕ)
    (h : Mounting (text mountpoint) t₀ m.vfs) :
    Mounting (text mountpoint) t₀ (importEntry dev boot mountpoint offset m).2.vfs := by
  have hparsed : (parsed offset m).vfs = m.vfs := (wrote_parsed offset m).vfs
  have hcases := importEntry_cases dev boot mountpoint offset m
  cases hk : entryKind (m.buffers .clusterBuf) offset <;> simp only [hk] at hcases
  case last =>
    rw [hcases]
    exact h
  case skipped =>
    obtain ⟨is, -, he⟩ := hcases
    rw [he]
    exact h
  case empty =>
    rw [hcases]
    exact Mounting.importEmpty (hparsed ▸ h)
  case file =>
    rw [hcases]
    exact Mounting.importFile dev boot _ _ (hparsed ▸ h)

theorem Mounting.importEntries (dev : Device) (boot : Boot) (offsets : List ℕ)
    (h : Mounting (text mountpoint) t₀ m.vfs) :
    Mounting (text mountpoint) t₀ (importEntries dev boot mountpoint offsets m).vfs := by
  induction offsets generalizing m with
  | nil => exact h
  | cons offset offsets ih =>
    have hentry := h.importEntry dev boot offset
    rw [Fat32.importEntries]
    generalize Fat32.importEntry dev boot mountpoint offset m = r at hentry ⊢
    obtain ⟨goOn, m₁⟩ := r
    cases goOn
    · exact hentry
    · exact ih hentry

theorem ensureMountpoint_spec (h : Inv m.vfs) (mountpoint : List UInt8) :
    (ensureMountpoint mountpoint m).1 = false ∧ (ensureMountpoint mountpoint m).2.vfs = m.vfs ∨
    (ensureMountpoint mountpoint m).1 = true ∧
      Mounting (text mountpoint) m.vfs (ensureMountpoint mountpoint m).2.vfs := by
  unfold ensureMountpoint exists'
  cases hf : findNode m.vfs mountpoint with
  | some i =>
    refine .inr ⟨rfl, h, ?_, .refl ..⟩
    exact Option.isSome_iff_exists.mpr ⟨_, node_eq_some_of_find hf⟩
  | none =>
    have hconf := confined_createDir mountpoint m.vfs
    have hinv : Inv (createDir m.vfs mountpoint).2 := h.exec (.createDir mountpoint)
    simp only [Option.isSome_none, Bool.not_false, if_true]
    rcases createNode_cases .dir m.vfs mountpoint with ⟨-, he⟩ | ⟨c, i, hi, he⟩
    · left
      rw [createDir, he]
      exact ⟨rfl, rfl⟩
    · refine .inr ⟨?_, hinv, ?_, hconf⟩
      · rw [createDir, he]
      · rw [createDir, he, node_store h.distinct hi c, if_pos rfl]
        rfl

theorem inv_confined_mountBoot (dev : Device) (boot : Boot) (mountpoint : List UInt8)
    (h : Inv m.vfs) :
    Inv (mountBoot dev boot mountpoint m).2.vfs ∧
      Confined (text mountpoint) m.vfs (mountBoot dev boot mountpoint m).2.vfs := by
  unfold mountBoot
  split
  · exact ⟨h, .refl ..⟩
  have hens := ensureMountpoint_spec h mountpoint
  generalize ensureMountpoint mountpoint m = r at hens ⊢
  obtain ⟨ok, m₁⟩ := r
  obtain ⟨rfl, hv⟩ | ⟨rfl, hm⟩ := hens
  · simp only [Bool.not_false, if_true, vfs_write] at hv ⊢
    rw [hv]
    exact ⟨h, .refl ..⟩
  · simp only [Bool.not_true, Bool.false_eq_true, if_false] at hm ⊢
    have himport := Mounting.importEntries (m := (blockRead dev (boot.sectorOfCluster
      boot.rootCluster) .clusterBuf boot.sectorsPerCluster.toNat m₁).2) dev boot
      (entryOffsets boot.clusterSize) hm
    split_ifs
    · exact ⟨hm.inv, hm.confined⟩
    · exact ⟨hm.inv, hm.confined⟩
    · exact ⟨himport.inv, himport.confined⟩

/-- A mount keeps the invariant and every node, and adds nodes under its mountpoint only. -/
theorem inv_confined_fat32Mount (dev : Device) (mountpoint : List UInt8) {m : Mount}
    (h : Inv m.vfs) :
    Inv (fat32Mount dev mountpoint m).2.vfs ∧
      Confined (text mountpoint) m.vfs (fat32Mount dev mountpoint m).2.vfs := by
  unfold fat32Mount
  split
  · exact ⟨h, .refl ..⟩
  dsimp only
  split
  · exact ⟨h, .refl ..⟩
  · exact inv_confined_mountBoot (m := (blockRead dev 0 .sector 1 m).2.touch .sector _) dev _
      mountpoint h

/-- On every device, from every reachable state of the file system and for every mountpoint,
a mount keeps every node as it was, and every node it adds is the mountpoint or a file
under it. -/
theorem fat32Mount_confined (dev : Device) (mountpoint : List UInt8) {m : Mount}
    (h : Reachable m.vfs) :
    Confined (text mountpoint) m.vfs (fat32Mount dev mountpoint m).2.vfs :=
  (inv_confined_fat32Mount dev mountpoint h.inv).2

/-- A mount of a volume on a directory of the first file system. -/
theorem fat32Mount_confined_twoFiles :
    let m := Mount.start (init staticTable) fun _ _ => 0
    Confined (text (ascii "/tmp")) m.vfs
      (fat32Mount (imageDevice twoFiles) (ascii "/tmp") m).2.vfs := by
  intro m
  have h : Reachable m.vfs := reachable_start fun _ _ => 0
  exact fat32Mount_confined (imageDevice twoFiles) (ascii "/tmp") h

end Wnu.Fat32
