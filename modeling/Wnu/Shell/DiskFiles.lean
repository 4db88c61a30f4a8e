import Wnu.Fat32.Import
import Wnu.Shell.Mounted

/-! # From the disk to the console

What a mount reads of the files of a volume is what the shell shows of them: `ls` lists
their names and `cat` prints their contents, also after other commands.
-/

namespace Wnu.Shell

open Text Memory Vfs Fat32

/-- The arguments of a `mount`, as the branch takes them apart. -/
structure MountArgs where
  dev : CString
  mountpoint : CString
  dev_token : space ∉ dev.bytes
  length_dev_lt : dev.bytes.length < pathMax
  mountpoint_head : mountpoint.bytes.head? ≠ some space

/-- The line `mount <dev> <mountpoint>`. -/
def MountArgs.line (a : MountArgs) : List UInt8 :=
  ascii "mount " ++ (a.dev.bytes ++ space :: a.mountpoint.bytes)

variable {env : Surroundings} {s : State} {image : Mem UInt8} {k : ℕ}
  {t : Table} {path M : List UInt8}

/-! ## The line -/

theorem parse_mountLine (a : MountArgs) :
    parse a.line = .mount (a.dev.bytes ++ space :: a.mountpoint.bytes) := rfl

theorem spacesLength_cons {bytes : List UInt8} (h : bytes.head? ≠ some space) :
    spacesLength (space :: bytes) = 1 := by
  cases bytes with
  | nil => rfl
  | cons c bytes =>
    have hc : c ≠ space := fun he => h (congrArg some he)
    rw [spacesLength, if_pos rfl, spacesLength, if_neg hc]

theorem execute_mountLine (a : MountArgs)
    (hpath : resolve env s a.mountpoint.bytes = some path) (hne : a.mountpoint.bytes ≠ []) :
    execute env a.line s =
      (.console ((fat32Mount (env.device a.dev.bytes) path (.start s.vfs env.buffers)).2.console ++
        if (fat32Mount (env.device a.dev.bytes) path (.start s.vfs env.buffers)).1 then []
        else ascii "mount: failed\n"),
      { s with vfs := (fat32Mount (env.device a.dev.bytes) path
          (.start s.vfs env.buffers)).2.vfs }) := by
  have hlen := tokenLength_append a.dev.ne_zero a.dev_token a.mountpoint.bytes
  have hshort : min a.dev.bytes.length (pathMax - 1) = a.dev.bytes.length :=
    Nat.min_eq_left (Nat.le_sub_one_of_lt a.length_dev_lt)
  have hdev : (a.dev.bytes ++ space :: a.mountpoint.bytes).take a.dev.bytes.length =
      a.dev.bytes := List.take_left ..
  have hend : (a.dev.bytes ++ space :: a.mountpoint.bytes).getD a.dev.bytes.length 0 = space := by
    simp
  have hrest : (a.dev.bytes ++ space :: a.mountpoint.bytes).drop a.dev.bytes.length =
      space :: a.mountpoint.bytes := List.drop_left ..
  have hmountpoint : (a.dev.bytes ++ space :: a.mountpoint.bytes).drop
      (a.dev.bytes.length + 1) = a.mountpoint.bytes := by
    rw [← List.drop_drop, hrest]
    rfl
  have hstart : (a.dev.bytes ++ space :: a.mountpoint.bytes).getD
      (a.dev.bytes.length + 1) 0 ≠ 0 := by
    obtain ⟨c, rest, hc⟩ := List.exists_cons_of_ne_nil hne
    have hget : (a.dev.bytes ++ space :: a.mountpoint.bytes).getD
        (a.dev.bytes.length + 1) 0 = c := by
      rw [hc]
      simp
    rw [hget]
    exact a.mountpoint.ne_zero c (hc ▸ List.mem_cons_self)
  have hspace : space ≠ 0 := by decide
  rw [execute, parse_mountLine]
  simp only [Command.run, mount, hlen, hend, hspace, if_false, hrest,
    spacesLength_cons a.mountpoint_head, hstart, hmountpoint, hpath, hshort, hdev]

/-! ## Names -/

theorem text_pathBasename_append {q c : List UInt8} (hne : c ≠ []) (hfree : slash ∉ c)
    (h : text path = appendComponent q c) : text (pathBasename path) = c := by
  rw [text_pathBasename (h ▸ appendComponent_ne_root q hne) (h ▸ slash_mem_appendComponent q c), h,
    base_appendComponent q hfree]

/-- What the loop of `ls` finds in a slot: a component below the directory, by its base name. -/
theorem component_of_mem_listed (h : Inv t) {dir : List UInt8} {i : Fin maxNodes}
    (hi : i ∈ listed t dir) : ∃ name, name ≠ [] ∧ slash ∉ name ∧
      t.node (appendComponent (text dir) name) = some (t.nodes i) ∧
      text (pathBasename (t.nodes i).path.toList) = name := by
  obtain ⟨hu, hchild⟩ := Bool.and_eq_true_iff.mp (List.mem_filter.mp hi).2
  obtain ⟨name, hne, hfree, hname⟩ := isDirectChild_iff_appendComponent.mp hchild
  exact ⟨name, hne, hfree, (node_eq_some_iff h.distinct).mpr ⟨i, hu, hname, rfl⟩,
    text_pathBasename_append hne hfree hname⟩

theorem nodup_baseNames (h : Inv t) (dir : List UInt8) :
    ((listed t dir).map fun i => text (pathBasename (t.nodes i).path.toList)).Nodup := by
  refine List.Nodup.map_on ?_ ((List.nodup_finRange _).filter _)
  intro i hi j hj he
  obtain ⟨name, -, -, hnode, hbase⟩ := component_of_mem_listed h hi
  obtain ⟨name', -, -, hnode', hbase'⟩ := component_of_mem_listed h hj
  rw [hbase, hbase'] at he
  rw [he] at hnode
  have hname : (t.nodes i).name = (t.nodes j).name := by
    rw [(name_of_node hnode).2, (name_of_node hnode').2]
  exact h.distinct i j (Inv.used_of_mem_listed hi) (Inv.used_of_mem_listed hj) hname

theorem ls_eq_names (hg : Good s) (env : Surroundings) {dir : List UInt8}
    (hdir : isDir s.vfs dir = true) (hroot : text dir ≠ rootPath) {names : List (List UInt8)}
    (hnodup : names.Nodup) (hnames : ∀ name ∈ names, name ≠ [] ∧ slash ∉ name)
    (hfiles : ∀ name, name ≠ [] → slash ∉ name →
      (s.vfs.node (text dir ++ slash :: name)).map Node.type =
        if name ∈ names then some .file else none) :
    ∃ order : List (List UInt8), order.Perm names ∧
      (execute env (lsLine dir) s).1 = .console (order.flatMap (· ++ ascii "\n")) := by
  have hinv := hg.inv
  have happend (name : List UInt8) :
      appendComponent (text dir) name = text dir ++ slash :: name := if_neg hroot
  have hslot : ∀ i ∈ listed s.vfs dir, (s.vfs.nodes i).type = .file ∧
      text (pathBasename (s.vfs.nodes i).path.toList) ∈ names := by
    intro i hi
    obtain ⟨name, hne, hfree, hnode, hbase⟩ := component_of_mem_listed hinv hi
    have htype := hfiles name hne hfree
    rw [← happend, hnode, Option.map_some] at htype
    split at htype
    · rename_i hmem
      exact ⟨Option.some.inj htype, hbase ▸ hmem⟩
    · cases htype
  refine ⟨(listed s.vfs dir).map fun i => text (pathBasename (s.vfs.nodes i).path.toList),
    ?_, ?_⟩
  · refine (List.perm_ext_iff_of_nodup (nodup_baseNames hinv dir) hnodup).mpr fun name => ?_
    rw [List.mem_map]
    constructor
    · rintro ⟨i, hi, rfl⟩
      exact (hslot i hi).2
    · intro hmem
      obtain ⟨hne, hfree⟩ := hnames name hmem
      have htype := hfiles name hne hfree
      rw [if_pos hmem, ← happend] at htype
      obtain ⟨node, hnode, -⟩ := Option.map_eq_some_iff.mp htype
      obtain ⟨i, hi, hname⟩ := (exists_listed_iff hinv hnode).mpr ⟨name, hne, hfree, rfl⟩
      exact ⟨i, hi, text_pathBasename_append hne hfree hname⟩
  · rw [ls_eq hg env hdir, List.flatMap_map]
    refine congrArg Output.console (List.flatMap_congr fun i hi => ?_)
    rw [entryLine, (hslot i hi).1, if_neg (by decide), List.append_nil]

/-! ## A volume -/

/-- The shell shows the files of a volume in a directory. -/
structure Shows (image : Mem UInt8) (k : ℕ) (M : List UInt8) (s : State) : Prop where
  ls : ∀ env dir, text dir = M → ∃ names : List (List UInt8),
    names.Perm ((List.range k).map (entryName image)) ∧
    (execute env (lsLine dir) s).1 = .console (names.flatMap (· ++ ascii "\n"))
  cat : ∀ j < k, ∀ inputs : List Input,
    Runs.Along exec (fun s i => ¬ Touches i.1 s (filePath image M j) (parse i.2)) s inputs →
    ∀ (env : Surroundings) (input : List UInt8),
      (resolve env (Runs.run exec s inputs) input).map text = some (filePath image M j) →
      (execute env (catLine input) (Runs.run exec s inputs)).1 =
        .console (endLine (entryContents image j))

theorem shows_of_imported (hg : Good s) (hk : Importable image k) (hM : EmptyDir t M k)
    {r : Bool × Mount} (himp : Imported image k M t r) (hdir : ∃ node,
      r.2.vfs.node M = some node ∧ node.type = .dir) (hs : s.vfs = r.2.vfs) :
    Shows image k M s := by
  have hlegal : ∀ j < k, entryName image j ≠ [] ∧ slash ∉ entryName image j := fun j hj =>
    ⟨(hk.plain j hj).name.1, fun hmem => ((hk.plain j hj).name.2 _ hmem).2 rfl⟩
  constructor
  · rintro env dir rfl
    refine ls_eq_names hg env ((isDir_iff hg.inv).mpr (hs ▸ hdir)) hM.ne_root ?_ ?_ ?_
    · refine List.Nodup.map_on ?_ List.nodup_range
      intro i hi j hj
      exact hk.distinct i (List.mem_range.mp hi) j (List.mem_range.mp hj)
    · intro name hmem
      obtain ⟨j, hj, rfl⟩ := List.mem_map.mp hmem
      exact hlegal j (List.mem_range.mp hj)
    · intro name hne hfree
      rw [hs]
      split
      · rename_i hmem
        obtain ⟨j, hj, rfl⟩ := List.mem_map.mp hmem
        obtain ⟨node, hnode, hfile, -⟩ := himp.files j (List.mem_range.mp hj)
        exact Option.map_eq_some_iff.mpr ⟨node, hnode, hfile⟩
      · rename_i hmem
        rw [Option.map_eq_none_iff, ← Option.not_isSome_iff_eq_none]
        intro hsome
        rcases himp.only _ hsome with hold | ⟨j, hj, he⟩
        · rw [hM.empty name hne hfree] at hold
          cases hold
        · have hname : name = entryName image j := by simpa [filePath] using he
          exact hmem (List.mem_map.mpr ⟨j, List.mem_range.mpr hj, hname.symm⟩)
  · intro j hj inputs hinputs env input hinput
    have hfile : HasFile s.vfs (filePath image M j) (entryContents image j) := by
      rw [hs]
      exact himp.files j hj
    exact (hfile.run hg hinputs).cat (hg.run inputs) env hinput

/-- After a `mount` of a volume on an empty directory, in any state of the shell, `ls` lists
exactly the files of the volume, and `cat` prints the first bytes of each of them as they are on
the disk, as many as its size and not more than 4096, whatever commands come between, as long as
none of them removes or writes the file. -/
theorem shows_after_mount (hs : Reachable s) (env : Surroundings) (a : MountArgs)
    (hM : (resolve env s a.mountpoint.bytes).map text = some M)
    (hdev : env.device a.dev.bytes = imageDevice image) (hk : Importable image k)
    (hempty : EmptyDir s.vfs M k) (hu : Undisturbed image k) :
    (∃ out, (execute env a.line s).1 = .console (out ++ ascii "fat32: mounted\n")) ∧
      Shows image k M (execute env a.line s).2 := by
  have hg := hs.good
  obtain ⟨path, hpath, rfl⟩ := Option.map_eq_some_iff.mp hM
  have hne : a.mountpoint.bytes ≠ [] := by
    intro hnil
    have hres := hg.resolve_eq env a.mountpoint.bytes
    rw [hM, hnil, if_neg fun hc => hc.1 rfl] at hres
    cases hres
  have hstart : (Mount.start s.vfs env.buffers).vfs = s.vfs := Mount.vfs_start ..
  have hinv : Inv (Mount.start s.vfs env.buffers).vfs := hstart.symm ▸ hg.inv
  have hempty' : EmptyDir (Mount.start s.vfs env.buffers).vfs (text path) k := by
    rwa [hstart]
  have himp := imported_of_undisturbed hinv hk hempty' hu
  obtain ⟨m, -, hmount⟩ := fat32Mount_of_importable hinv hk hempty'
  obtain ⟨node, hnode, htype⟩ := hempty'.dir
  have hdir := node_fat32Mount hinv (imageDevice image) path hnode
  have hgood : Good (execute env a.line s).2 := hg.exec (env, a.line)
  have hline := execute_mountLine a hpath hne
  rw [hdev] at hline
  constructor
  · rw [hline, hmount]
    exact ⟨_, congrArg Output.console (List.append_nil _)⟩
  · exact shows_of_imported hgood hk hempty' himp ⟨node, hdir, htype⟩ (by rw [hline])

/-- The arguments of `mount sata0 /tmp`. -/
def mountTmp : MountArgs where
  dev := ⟨ascii "sata0", by decide +kernel, by decide⟩
  mountpoint := ⟨ascii "/tmp", by decide +kernel, by decide⟩
  dev_token := by decide
  length_dev_lt := by decide
  mountpoint_head := by decide

theorem shows_after_mount_emptyFirst :
    let env : Surroundings := { bare with device := fun _ => imageDevice emptyFirst }
    let s := boot (init staticTable)
    (∃ out, (execute env mountTmp.line s).1 = .console (out ++ ascii "fat32: mounted\n")) ∧
      Shows emptyFirst 2 (text (ascii "/tmp")) (execute env mountTmp.line s).2 := by
  intro env s
  have hs : Reachable s := ⟨init staticTable, [], reachable_init staticTable, rfl⟩
  have hM : (resolve env s mountTmp.mountpoint.bytes).map text = some (text (ascii "/tmp")) := by
    decide +kernel
  have hempty : EmptyDir s.vfs (text (ascii "/tmp")) 2 := by
    rw [vfs_boot]
    exact emptyDir_tmp
  exact shows_after_mount hs env mountTmp hM rfl importable_emptyFirst hempty
    ⟨by unfold ReadsUpTo; decide +kernel, by decide +kernel⟩

end Wnu.Shell
