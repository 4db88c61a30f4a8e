import Wnu.Fat32.Rounds
import Wnu.Shell.Resolution
import Wnu.Shell.RoundTrip
import Wnu.Vfs.TreeOrder

/-! # Mounted files in the shell

A mount puts a slash and the name of an entry behind the mountpoint and cuts the path to
63 bytes. The shell puts no second slash behind the root, takes some names for something
else than a name in the current directory, and rejects a path that it would have to cut.
-/

namespace Wnu.Shell

open Text Memory Vfs Fat32

/-- The line `cd <path>`. -/
def cdLine (path : List UInt8) : List UInt8 := ascii "cd " ++ path

/-- The line `ls <path>`. -/
def lsLine (path : List UInt8) : List UInt8 := ascii "ls " ++ path

/-- After `cd <dir>` the name resolves to the path, and `cat <name>` prints the file there.
`ls <dir>` lists it. -/
structure Finds (env : Surroundings) (s : State) (dir name p : List UInt8) : Prop where
  resolves : (resolve env (execute env (cdLine dir) s).2 name).map text = some p
  cat : ∃ node, s.vfs.node p = some node ∧ node.type = .file ∧
    (execute env (catLine name) (execute env (cdLine dir) s).2).1 = .console (endLine node.contents)
  ls : (execute env (lsLine dir) s).1 =
    .console ((listed s.vfs dir).flatMap fun i => entryLine (s.vfs.nodes i)) ∧
    ∃ i ∈ listed s.vfs dir, (s.vfs.nodes i).name = p

/-- The mount and the shell join the directory and the name in the same way, and the name is one
component. -/
structure JoinsAlike (M N : List UInt8) : Prop where
  ne_root : M ≠ rootPath
  ne_nil : N ≠ []
  ne_dot : N ≠ ascii "."
  free : slash ∉ N
  fits : M.length + 1 + N.length < pathMax

instance (M N : List UInt8) : Decidable (JoinsAlike M N) :=
  decidable_of_iff (M ≠ rootPath ∧ N ≠ [] ∧ N ≠ ascii "." ∧ slash ∉ N ∧
    M.length + 1 + N.length < pathMax)
    ⟨fun h => ⟨h.1, h.2.1, h.2.2.1, h.2.2.2.1, h.2.2.2.2⟩,
      fun h => ⟨h.ne_root, h.ne_nil, h.ne_dot, h.free, h.fits⟩⟩

variable {env : Surroundings} {s : State} {path M N p : List UInt8} {t : Table}

/-! ## The lines -/

theorem parse_cdLine (path : List UInt8) : parse (cdLine path) = .cd path := rfl

theorem parse_lsLine (path : List UInt8) : parse (lsLine path) = .lsPath path := rfl

theorem resolve_of_isDir (h : Good s) (env : Surroundings) (hdir : isDir s.vfs path = true) :
    ∃ path', resolve env s path = some path' ∧ text path' = text path := by
  obtain ⟨r, hr⟩ := absolute_of_isDir h.inv hdir
  have hlen := length_lt_of_isDir h.inv hdir
  have hdot : text path ≠ ascii "." := by
    rw [hr]
    intro he
    exact absurd (List.cons.inj he).1 (by decide)
  have hself : pathIn (text s.dir) (text path) = text path := by
    rw [pathIn, if_neg hdot, if_pos (by rw [hr]; rfl)]
  have hres := h.resolve_eq env path
  rw [hself, if_pos ⟨by simp [hr], hlen⟩] at hres
  exact Option.map_eq_some_iff.mp hres

theorem cd_eq (h : Good s) (env : Surroundings) (hdir : isDir s.vfs path = true) :
    (execute env (cdLine path) s).2.vfs = s.vfs ∧
      text (execute env (cdLine path) s).2.dir = text path := by
  obtain ⟨path', hres, htext⟩ := resolve_of_isDir h env hdir
  obtain ⟨node, hn, htype⟩ := (isDir_iff h.inv).mp hdir
  have hdir' : isDir s.vfs path' = true := by
    rw [isDir_iff h.inv, htext]
    exact ⟨node, hn, htype⟩
  have hexists : exists' s.vfs path' = true := exists'_of_node (htext ▸ hn)
  rw [execute, parse_cdLine]
  simp only [Command.run, cd, hres, hexists, hdir', Bool.not_true, Bool.false_eq_true, if_false]
  refine ⟨trivial, ?_⟩
  rw [State.dir, text_window_stringCopy _ _ (length_lt_of_isDir h.inv hdir'), htext]

theorem ls_eq (h : Good s) (env : Surroundings) (hdir : isDir s.vfs path = true) :
    (execute env (lsLine path) s).1 =
      .console ((listed s.vfs path).flatMap fun i => entryLine (s.vfs.nodes i)) := by
  obtain ⟨path', hres, htext⟩ := resolve_of_isDir h env hdir
  have hdir' : isDir s.vfs path' = true := by
    rw [isDir_iff h.inv, htext, ← isDir_iff h.inv]
    exact hdir
  rw [execute, parse_lsLine]
  simp only [Command.run, lsPath, showPath, hres]
  rw [listDir_of_isDir h.inv hdir', listed_congr htext]

/-! ## The path -/

theorem joined_of_fits (hN : text N = N) (hfits : (text M).length + 1 + N.length < pathMax) :
    joined M N = text M ++ slash :: N := by
  have hmax : pathMax = 64 := rfl
  rw [joined, hN, List.take_of_length_le]
  rw [List.length_append, List.length_cons]
  omega

/-- The path that the shell gives a name of at most 12 bytes in a directory is the one that the
mount joins, unless the directory is the root, the name is taken for something else or the path
is cut. -/
theorem pathIn_eq_joined_iff (hM : ∃ r, M = slash :: r) (hzeroM : text M = M) (hzeroN : text N = N)
    (hN : N.length ≤ 12) (hne : joined M N ≠ M) :
    (N ≠ [] ∧ (pathIn M N).length < pathMax ∧ pathIn M N = joined M N) ↔
      M ≠ rootPath ∧ N ≠ [] ∧ N ≠ ascii "." ∧ N.head? ≠ some slash ∧
        M.length + 1 + N.length < pathMax := by
  have hjoined : joined M N = (M ++ slash :: N).take 63 := by rw [joined, hzeroM, hzeroN]
  obtain ⟨d, hd⟩ := hM
  have hpos : 0 < M.length := by simp [hd]
  constructor
  · rintro ⟨hnil, hlen, he⟩
    have hlength := congrArg List.length (he.trans hjoined)
    rw [List.length_take, List.length_append, List.length_cons] at hlength
    by_cases hdot : N = ascii "."
    · rw [pathIn, if_pos hdot] at he
      exact absurd he.symm hne
    by_cases hhead : N.head? = some slash
    · rw [pathIn, if_neg hdot, if_pos hhead] at hlength
      omega
    rw [pathIn, if_neg hdot, if_neg hhead, List.length_append] at hlen hlength
    by_cases hroot : M = rootPath
    · have hone : (baseOf M).length = 1 := by rw [baseOf, if_pos hroot]; rfl
      have hone' : M.length = 1 := by rw [hroot]; rfl
      omega
    · have hbase : (baseOf M).length = M.length + 1 := by
        rw [baseOf, if_neg hroot, List.length_append]
        rfl
      exact ⟨hroot, hnil, hdot, hhead, by omega⟩
  · rintro ⟨hroot, hnil, hdot, hhead, hfits⟩
    have hpath : pathIn M N = M ++ slash :: N := by
      rw [pathIn, if_neg hdot, if_neg hhead, baseOf, if_neg hroot, List.append_assoc,
        List.singleton_append]
    have hcut := joined_of_fits (M := M) hzeroN (by rwa [hzeroM])
    rw [hzeroM] at hcut
    rw [hpath, hcut, List.length_append, List.length_cons]
    exact ⟨hnil, by omega, rfl⟩

/-! ## One file -/

variable {dir : List UInt8}

theorem text_name (r : Round) : text r.name = r.name := text_text _

theorem exists_listed_iff (h : Inv t) {node : Node} (hp : t.node p = some node) :
    (∃ i ∈ listed t path, (t.nodes i).name = p) ↔
      ∃ c, c ≠ [] ∧ slash ∉ c ∧ p = appendComponent (text path) c := by
  constructor
  · rintro ⟨i, hi, rfl⟩
    obtain ⟨-, hchild⟩ := Bool.and_eq_true_iff.mp (List.mem_filter.mp hi).2
    exact isDirectChild_iff_appendComponent.mp hchild
  · intro hc
    obtain ⟨i, hu, hname, -⟩ := (node_eq_some_iff h.distinct).mp hp
    refine ⟨i, List.mem_filter.mpr ⟨List.mem_finRange i, ?_⟩, hname⟩
    rw [Bool.and_eq_true_iff]
    refine ⟨hu, isDirectChild_iff_appendComponent.mpr ?_⟩
    rw [← hname] at hc
    exact hc

/-- The shell finds a file that is mounted exactly if both join its path in the same way. -/
theorem finds_iff (h : Good s) (env : Surroundings) (hdir : isDir s.vfs dir = true)
    (hname : text N = N) (hN : N.length ≤ 12) (hne : joined dir N ≠ text dir) {node : Node}
    (hp : s.vfs.node (joined dir N) = some node) (hfile : node.type = .file) :
    Finds env s dir N (joined dir N) ↔ JoinsAlike (text dir) N := by
  have hM := absolute_of_isDir h.inv hdir
  obtain ⟨hvfs, hcd⟩ := cd_eq h env hdir
  have hjoined : joined (text dir) N = joined dir N := by rw [joined, joined, text_text]
  have hpath := pathIn_eq_joined_iff hM (text_text dir) hname hN (by rwa [hjoined])
  rw [hjoined] at hpath
  have hgood : Good (execute env (cdLine dir) s).2 := h.exec (env, cdLine dir)
  have hres := hgood.resolve_eq env N
  rw [hcd, hname] at hres
  constructor
  · rintro ⟨hresolves, -, -, hlisted⟩
    rw [hres] at hresolves
    split at hresolves
    · rename_i hok
      obtain ⟨hroot, hnil, hdot, hhead, hfits⟩ :=
        hpath.mp ⟨hok.1, hok.2, Option.some.inj hresolves⟩
      obtain ⟨c, -, hfree, hc⟩ := (exists_listed_iff h.inv hp).mp hlisted
      rw [joined_of_fits hname hfits, appendComponent, if_neg hroot, append_slash_inj] at hc
      exact ⟨hroot, hnil, hdot, hc ▸ hfree, hfits⟩
    · cases hresolves
  · intro hj
    have hhead : N.head? ≠ some slash := by
      intro hhead
      exact hj.free (List.mem_of_mem_head? hhead)
    obtain ⟨hnil, hlen, he⟩ := hpath.mpr ⟨hj.ne_root, hj.ne_nil, hj.ne_dot, hhead, hj.fits⟩
    rw [if_pos ⟨hnil, hlen⟩, he] at hres
    refine ⟨hres, ⟨node, hp, hfile, ?_⟩, ls_eq h env hdir,
      (exists_listed_iff h.inv hp).mpr ⟨N, hnil, hj.free, ?_⟩⟩
    · have hhas : HasFile (execute env (cdLine dir) s).2.vfs (joined dir N) node.contents := by
        rw [hvfs]
        exact ⟨node, hp, hfile, rfl⟩
      exact hhas.cat hgood env hres
    · rw [joined_of_fits hname hj.fits, appendComponent, if_neg hj.ne_root]

/-- For every device, every directory of every reachable file system and every state of the shell
after the mount: the shell finds all new files by their names exactly if, for every file that is
added, the directory is not the root, the name is one component other than `.`, and the path
fits. -/
theorem mounted_found_iff (dev : Device) (dir : List UInt8) (buffers : Buffer → Mem UInt8)
    (h : Vfs.Reachable t) (hdir : isDir t dir = true) (env : Surroundings) (s : State)
    (hs : s.vfs = (fat32Mount dev dir (.start t buffers)).2.vfs)
    (hcurrent : (text s.dir).length < pathMax) :
    let m := Mount.start t buffers
    (∀ p ∈ newFiles t s.vfs, ∃ r ∈ rounds dev dir m,
      r.Creates dev (diskBoot dev m) dir p ∧ Finds env s dir r.name p) ↔
    ∀ r ∈ rounds dev dir m, r.Adds (diskBoot dev m) dir → JoinsAlike (text dir) r.name := by
  intro m
  obtain ⟨hinv, hconf⟩ := inv_confined_fat32Mount dev dir (m := m) h.inv
  rw [← hs] at hinv hconf
  have hgood : Good s := ⟨hinv, hcurrent⟩
  obtain ⟨dirNode, hn, htype⟩ := (isDir_iff h.inv).mp hdir
  have hdir' : isDir s.vfs dir = true :=
    (isDir_iff hinv).mpr ⟨dirNode, hconf.node h.inv hinv hn, htype⟩
  have hiff := forall_newFiles_iff dev dir (m := m) h.inv fun r p => Finds env s dir r.name p
  rw [← hs] at hiff
  refine hiff.trans (forall₂_congr fun r hr => forall_congr' fun ha => ?_)
  obtain ⟨node, hp, hfile, -⟩ := node_fat32Mount_of_adds (m := m) h.inv hr ha
  rw [← hs] at hp
  have hne : joined dir r.name ≠ text dir := by
    intro he
    have hmounted := (mounting_before (m := m) h.inv hr).mounted
    have habsent := ha.2.absent
    rw [he] at habsent
    rw [habsent] at hmounted
    cases hmounted
  exact finds_iff hgood env hdir' (text_name r) (length_nameOf_le _ _) hne hp hfile

/-- The shell after a mount of the volume with `A` and `B`. -/
def afterMount (dir : List UInt8) : State :=
  Shell.boot (fat32Mount (imageDevice twoFiles) dir freshMount).2.vfs

theorem length_dir_afterMount (dir : List UInt8) :
    (text (afterMount dir).dir).length < pathMax := by
  rw [afterMount, text_dir_boot]
  decide

/-- A file in `/tmp`. -/
theorem mounted_found_iff_tmp : ∃ r ∈ rounds (imageDevice twoFiles) (ascii "/tmp") freshMount,
    r.Creates (imageDevice twoFiles) (diskBoot (imageDevice twoFiles) freshMount) (ascii "/tmp")
      (ascii "/tmp/A") ∧
    Finds bare (afterMount (ascii "/tmp")) (ascii "/tmp") r.name (ascii "/tmp/A") := by
  have hdir : isDir freshMount.vfs (ascii "/tmp") = true := by decide +kernel
  have hrounds : ∀ r ∈ rounds (imageDevice twoFiles) (ascii "/tmp") freshMount,
      entryKind r.bytes r.offset = .last ∨ JoinsAlike (text (ascii "/tmp")) r.name := by
    decide +kernel
  have hnone : freshMount.vfs.node (ascii "/tmp/A") = none := by decide +kernel
  have hfile : ((afterMount (ascii "/tmp")).vfs.node (ascii "/tmp/A")).map Node.type =
      some .file := by
    decide +kernel
  obtain ⟨node, hn, htype⟩ := Option.map_eq_some_iff.mp hfile
  have hnew : ascii "/tmp/A" ∈ newFiles freshMount.vfs (afterMount (ascii "/tmp")).vfs :=
    ⟨hnone, node, hn, htype⟩
  have hstart : Mount.start freshMount.vfs (fun _ _ => 0) = freshMount := by
    rw [freshMount, Mount.vfs_start]
  have hvfs : (afterMount (ascii "/tmp")).vfs = (fat32Mount (imageDevice twoFiles) (ascii "/tmp")
      (.start freshMount.vfs fun _ _ => 0)).2.vfs := by
    rw [hstart, afterMount, vfs_boot]
  have hfound := mounted_found_iff (imageDevice twoFiles) (ascii "/tmp") (fun _ _ => 0)
    reachable_freshMount hdir bare (afterMount (ascii "/tmp")) hvfs (length_dir_afterMount _)
  simp only [hstart] at hfound
  refine hfound.mpr (fun r hr ha => ?_) (ascii "/tmp/A") hnew
  rcases hrounds r hr with hlast | hjoins
  · rcases ha.1 with hk | ⟨hk, -⟩ <;> rw [hlast] at hk <;> cases hk
  · exact hjoins

/-- A mount on the root creates `//A`, and after `cd /` the name `A` resolves to `/A`. -/
theorem not_mounted_found_root :
    isDir freshMount.vfs (ascii "/") = true ∧
      ¬ ∀ p ∈ newFiles freshMount.vfs (afterMount (ascii "/")).vfs,
        ∃ r ∈ rounds (imageDevice twoFiles) (ascii "/") freshMount,
          r.Creates (imageDevice twoFiles) (diskBoot (imageDevice twoFiles) freshMount)
            (ascii "/") p ∧
          Finds bare (afterMount (ascii "/")) (ascii "/") r.name p := by
  have hdir : isDir freshMount.vfs (ascii "/") = true := by decide +kernel
  have hnone : freshMount.vfs.node (ascii "//A") = none := by decide +kernel
  have hfile : ((afterMount (ascii "/")).vfs.node (ascii "//A")).map Node.type = some .file := by
    decide +kernel
  have hresolves : ∀ r ∈ rounds (imageDevice twoFiles) (ascii "/") freshMount,
      (resolve bare (execute bare (cdLine (ascii "/")) (afterMount (ascii "/"))).2 r.name).map
        text ≠ some (ascii "//A") := by
    decide +kernel
  refine ⟨hdir, fun hall => ?_⟩
  obtain ⟨node, hn, htype⟩ := Option.map_eq_some_iff.mp hfile
  obtain ⟨r, hr, -, hfinds⟩ := hall _ ⟨hnone, node, hn, htype⟩
  exact hresolves r hr hfinds.resolves

end Wnu.Shell
