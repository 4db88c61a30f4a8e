import Wnu.Runs.Machine
import Wnu.Vfs.Paths

/-! # The operations of the file system

Creation, deletion, writing, appending, reading and listing are translated from
the source. For each operation that changes the table one lemma says everything
a call can do: it fails and changes nothing, or its checks hold and one slot is
stored, released or rewritten.
-/

namespace Wnu.Vfs

open Text Memory Components

/-- `wnu_vfs_create_file` and `wnu_vfs_create_dir`, which differ in the type they set. -/
def createNode (type : NodeType) (t : Table) (path : List UInt8) : Bool × Table :=
  if !validPath path then (false, t)
  else if stringEqual path rootPath then (false, t)
  else if (findNode t path).isSome then (false, t)
  else if !parentExistsAndIsDir t path then (false, t)
  else match allocNode t with
    | none => (false, t)
    | some (i, t') =>
      (true, t'.modify i fun node =>
        { node with type := type, size := 0, path := stringCopy node.path path maxName })

/-- `wnu_vfs_create_file` -/
def createFile : Table → List UInt8 → Bool × Table := createNode .file

/-- `wnu_vfs_create_dir` -/
def createDir : Table → List UInt8 → Bool × Table := createNode .dir

/-- The scan of `wnu_vfs_delete` for a node under the directory `nodes[i]`. -/
def hasNodeUnder (t : Table) (i : Fin maxNodes) (path : List UInt8) : Bool :=
  (List.finRange maxNodes).any fun j =>
    (t.nodes j).used && j ≠ i && stringStartsWith (t.nodes j).path.toList path &&
      (t.nodes j).path.toList.getD (stringLen path) 0 = slash

/-- `wnu_vfs_delete` -/
def delete (t : Table) (path : List UInt8) : Bool × Table :=
  if !validPath path then (false, t)
  else if stringEqual path rootPath then (false, t)
  else match findNode t path with
    | none => (false, t)
    | some i =>
      if (t.nodes i).type = .dir ∧ hasNodeUnder t i path then (false, t)
      else (true, t.modify i fun node => { node with used := false })

/-- The checks of `wnu_vfs_write_file` and `wnu_vfs_append_file` around what they do to the node.
A null `data` is `none`. -/
def updateFile (t : Table) (path : List UInt8) (data : Option (Mem UInt8))
    (f : Mem UInt8 → Node → Node) : Bool × Table :=
  if !validPath path then (false, t)
  else match data with
    | none => (false, t)
    | some data =>
      match findNode t path with
      | none => (false, t)
      | some i =>
        if (t.nodes i).type ≠ .file then (false, t)
        else (true, t.modify i (f data))

/-- What `wnu_vfs_write_file` does to the node. -/
def Node.write (size : UInt64) (data : Mem UInt8) (node : Node) : Node :=
  let size := if size > maxData then maxData else size
  { node with data := copyLoop node.data 0 data size.toNat, size := size }

/-- What `wnu_vfs_append_file` does to the node. -/
def Node.append (size : UInt64) (data : Mem UInt8) (node : Node) : Node :=
  let available := maxData - node.size
  let size := if size > available then available else size
  { node with data := copyLoop node.data node.size.toNat data size.toNat, size := node.size + size }

/-- `wnu_vfs_write_file` -/
def writeFile (t : Table) (path : List UInt8) (data : Option (Mem UInt8)) (size : UInt64) :
    Bool × Table := updateFile t path data (Node.write size)

/-- `wnu_vfs_append_file` -/
def appendFile (t : Table) (path : List UInt8) (data : Option (Mem UInt8)) (size : UInt64) :
    Bool × Table := updateFile t path data (Node.append size)

/-- `wnu_vfs_read_file`: the data pointer, null being `none`, and `*out_size`. -/
def readFile (t : Table) (path : List UInt8) : Option (Mem UInt8 × UInt64) :=
  if !validPath path then none
  else match findNode t path with
    | none => none
    | some i =>
      if (t.nodes i).type ≠ .file then none else some ((t.nodes i).data, (t.nodes i).size)

/-- `wnu_vfs_exists` -/
def exists' (t : Table) (path : List UInt8) : Bool := (findNode t path).isSome

/-- `wnu_vfs_is_dir` and `wnu_vfs_is_file`, which differ in the type they ask for. -/
def hasType (type : NodeType) (t : Table) (path : List UInt8) : Bool :=
  match findNode t path with
  | none => false
  | some i => (t.nodes i).type = type

/-- `wnu_vfs_is_dir` -/
def isDir : Table → List UInt8 → Bool := hasType .dir

/-- `wnu_vfs_is_file` -/
def isFile : Table → List UInt8 → Bool := hasType .file

inductive Op
  | createFile (path : List UInt8)
  | createDir (path : List UInt8)
  | delete (path : List UInt8)
  | writeFile (path : List UInt8) (data : Option (Mem UInt8)) (size : UInt64)
  | appendFile (path : List UInt8) (data : Option (Mem UInt8)) (size : UInt64)

def Op.created : Op → Option (List UInt8)
  | .createFile path | .createDir path => some path
  | _ => none

def exec (t : Table) : Op → Bool × Table
  | .createFile path => createFile t path
  | .createDir path => createDir t path
  | .delete path => delete t path
  | .writeFile path data size => writeFile t path data size
  | .appendFile path data size => appendFile t path data size

def literal (s : String) : Mem UInt8 := ofList (ascii s) 0

/-- The table `wnu_vfs_init` has once it made the root: all slots cleared, one taken. -/
def initRoot (t : Table) : Table :=
  let cleared : Table :=
    { nodes := fun i =>
        { t.nodes i with
          used := false, inode := 0, size := 0, path := (t.nodes i).path.set 0 0 maxName_pos }
      nextInode := 1 }
  match allocNode cleared with
  | none => cleared
  | some (i, t') =>
    t'.modify i fun node =>
      { node with type := .dir, path := stringCopy node.path rootPath maxName }

/-- The text `wnu_vfs_init` writes to `/etc/os-release`. -/
def osRelease : String :=
  "NAME=WNU\nID=unix-like\nHOME_URL=https://github.com/segfaultuwu/wnu\n"

/-- The calls `wnu_vfs_init` makes after the root. -/
def initOps : List Op :=
  [.createDir (ascii "/bin"), .createDir (ascii "/etc"), .createDir (ascii "/home"),
    .createDir (ascii "/tmp"),
    .createFile (ascii "/etc/os-release"),
    .writeFile (ascii "/etc/os-release") (some (literal osRelease))
      (UInt64.ofNat (stringLen (ascii osRelease))),
    .createFile (ascii "/hello.txt"),
    .writeFile (ascii "/hello.txt") (some (literal "hello from vfs\n")) 15]

/-- `wnu_vfs_init`, on whatever the static state holds. -/
def init (t : Table) : Table := Runs.run exec (initRoot t) initOps

/-- The tables reached from `wnu_vfs_init`. -/
def Reachable (t : Table) : Prop := ∃ t₀ ops, t = Runs.run exec (init t₀) ops

def staticTable : Table :=
  { nodes := fun _ => ⟨false, 0, .file, Vector.replicate maxName 0, fun _ => 0, 0⟩, nextInode := 0 }

theorem reachable_init (t : Table) : Reachable (init t) :=
  ⟨t, [], (Runs.run_nil exec (init t)).symm⟩

theorem Reachable.run {t : Table} (h : Reachable t) (ops : List Op) :
    Reachable (Runs.run exec t ops) := by
  obtain ⟨t₀, ops₀, rfl⟩ := h
  exact ⟨t₀, ops₀ ++ ops, (Runs.run_append exec (init t₀) ops₀ ops).symm⟩

/-! ## What a call can do -/

/-- The node that a creation leaves in slot `i`. -/
def Table.created (t : Table) (i : Fin maxNodes) (type : NodeType) (path : List UInt8) : Node :=
  { t.nodes i with
    used := true, inode := t.nextInode, type := type, size := 0
    path := stringCopy ((t.nodes i).path.set 0 0 maxName_pos) path maxName }

/-- The table after a creation in slot `i`. -/
def Table.store (t : Table) (i : Fin maxNodes) (type : NodeType) (path : List UInt8) : Table :=
  ⟨Function.update t.nodes i (t.created i type path), t.nextInode + 1⟩

def Table.node (t : Table) (p : List UInt8) : Option Node := Slots.lookup view t.nodes p

structure Creatable (t : Table) (p : List UInt8) : Prop where
  absolute : ∃ r, p = slash :: r
  length_lt : p.length < maxName
  ne_root : p ≠ rootPath
  absent : t.node p = none
  parent : ∃ node, t.node (parent slash p) = some node ∧ node.type = .dir
  room : (Slots.usedSlots view t.nodes).card < maxNodes

theorem Creatable.ne_of_node {t : Table} {p q : List UInt8} {node : Node} (c : Creatable t p)
    (hn : t.node q = some node) : q ≠ p := by
  rintro rfl
  rw [c.absent] at hn
  cases hn

theorem name_created {t : Table} {i : Fin maxNodes} {type : NodeType} {path : List UInt8}
    (h : (text path).length < maxName) : (t.created i type path).name = text path := by
  rw [Node.name, Table.created, text_stringCopy _ _ (by decide) le_rfl]
  exact List.take_of_length_le (by omega)

theorem map_findNode {t : Table} {path : List UInt8} :
    (findNode t path).map t.nodes = t.node (text path) := by rw [findNode_eq]; rfl

theorem node_eq_some_of_find {t : Table} {path : List UInt8} {i : Fin maxNodes}
    (h : findNode t path = some i) : t.node (text path) = some (t.nodes i) := by
  rw [← map_findNode, h]
  rfl

theorem find_of_node_eq_some {t : Table} {path : List UInt8} {node : Node}
    (h : t.node (text path) = some node) :
    ∃ i, findNode t path = some i ∧ t.nodes i = node := by
  rw [← map_findNode] at h
  exact Option.map_eq_some_iff.mp h

theorem node_eq_none_iff {t : Table} {path : List UInt8} :
    t.node (text path) = none ↔ findNode t path = none := by
  rw [← map_findNode, Option.map_eq_none_iff]

theorem parentExistsAndIsDir_iff {t : Table} {path r : List UInt8} (h : text path = slash :: r)
    (hlen : (text path).length < maxName) :
    parentExistsAndIsDir t path = true ↔
      ∃ node, t.node (parent slash (text path)) = some node ∧ node.type = .dir := by
  have hp := text_parentPath h (Vector.replicate maxName 0) hlen
  unfold parentExistsAndIsDir
  generalize parentPath path (Vector.replicate maxName 0) maxName = out at hp ⊢
  rw [← hp, ← map_findNode]
  cases hf : findNode t out.toList <;> simp [hf]

theorem allocNode_eq (t : Table) :
    allocNode t = (Slots.free view t.nodes).map fun i =>
      (i, ⟨Function.update t.nodes i
        { t.nodes i with
          used := true, inode := t.nextInode, size := 0
          path := (t.nodes i).path.set 0 0 maxName_pos },
        t.nextInode + 1⟩) := by
  simp only [allocNode, Slots.free, view_used, Table.modify]

theorem createNode_cases (type : NodeType) (t : Table) (path : List UInt8) :
    (¬ Creatable t (text path) ∧ createNode type t path = (false, t)) ∨
    (Creatable t (text path) ∧ ∃ i, Slots.free view t.nodes = some i ∧
      createNode type t path = (true, t.store i type path)) := by
  unfold createNode
  by_cases hv : validPath path = true
  swap
  · exact .inl ⟨fun c => hv ((validPath_iff _).mpr ⟨c.absolute, c.length_lt⟩), by simp [hv]⟩
  obtain ⟨⟨r, hr⟩, hlen⟩ := (validPath_iff _).mp hv
  by_cases hroot : text path = rootPath
  · refine .inl ⟨fun c => c.ne_root hroot, ?_⟩
    simp [hv, (stringEqual_iff path rootPath).mpr hroot]
  have hroot' : stringEqual path rootPath = false := stringEqual_of_ne hroot
  cases hfind : findNode t path with
  | some i =>
    refine .inl ⟨fun c => ?_, by simp [hv, hroot']⟩
    rw [node_eq_none_iff.mp c.absent] at hfind
    cases hfind
  | none =>
    by_cases hpar : parentExistsAndIsDir t path = true
    swap
    · refine .inl ⟨fun c => hpar ((parentExistsAndIsDir_iff hr hlen).mpr c.parent), ?_⟩
      simp [hv, hroot', hpar]
    rw [allocNode_eq]
    cases hfree : Slots.free view t.nodes with
    | none =>
      refine .inl ⟨fun c => ?_, by simp [hv, hroot', hpar]⟩
      have := Slots.free_isSome_iff.mpr c.room
      simp [hfree] at this
    | some i =>
      have hroom := Slots.free_isSome_iff.mp (by rw [hfree]; rfl)
      refine .inr ⟨⟨⟨r, hr⟩, hlen, hroot, node_eq_none_iff.mpr hfind,
        (parentExistsAndIsDir_iff hr hlen).mp hpar, hroom⟩, i, rfl, ?_⟩
      simp only [hv, hroot', hpar, Option.isSome_none, Option.map_some, Bool.not_true,
        Bool.false_eq_true, if_false]
      simp only [Table.modify, Table.store, Table.created, Function.update_self,
        Function.update_idem]

structure Deletable (t : Table) (p : List UInt8) : Prop where
  absolute : ∃ r, p = slash :: r
  length_lt : p.length < maxName
  ne_root : p ≠ rootPath
  present : ∃ node, t.node p = some node ∧
    (node.type = .dir → ∀ j, (t.nodes j).used → ¬ Below slash p (t.nodes j).name)

/-- The table after the slot `i` is given up. -/
def Table.release (t : Table) (i : Fin maxNodes) : Table :=
  t.modify i fun node => { node with used := false }

theorem hasNodeUnder_iff {t : Table} {i : Fin maxNodes} {path : List UInt8}
    (hi : (t.nodes i).name = text path) :
    hasNodeUnder t i path = true ↔
      ∃ j, (t.nodes j).used ∧ Below slash (text path) (t.nodes j).name := by
  have hunder (s : List UInt8) : (stringStartsWith s path = true ∧
      s.getD (stringLen path) 0 = slash) ↔ Below slash (text path) (text s) := by
    rw [stringStartsWith_iff, below_iff, stringLen_eq, getD_eq_headD_drop,
      headD_eq_iff slash_ne_zero]
    constructor
    · rintro ⟨hpre, r, hr⟩
      rw [text_drop hpre.length_le] at hr
      exact ⟨r, by rw [← hr]; exact (List.prefix_iff_eq_append.mp hpre).symm⟩
    · rintro ⟨r, hr⟩
      refine ⟨⟨_, hr.symm⟩, r, ?_⟩
      rw [text_drop (by simp [hr]), hr, List.drop_left]
  simp only [hasNodeUnder, List.any_eq_true, List.mem_finRange, true_and, Bool.and_eq_true,
    decide_eq_true_eq, and_assoc]
  refine exists_congr fun j => and_congr_right fun _ => ?_
  rw [hunder]
  apply and_iff_right_of_imp
  intro hb
  -- a path is not below itself
  rintro rfl
  obtain ⟨r, hr⟩ := below_iff.mp hb
  have hl := congrArg List.length (hi.symm.trans hr)
  simp at hl

theorem delete_cases (t : Table) (path : List UInt8) :
    (¬ Deletable t (text path) ∧ delete t path = (false, t)) ∨
    (Deletable t (text path) ∧ ∃ i, findNode t path = some i ∧
      delete t path = (true, t.release i)) := by
  unfold delete
  by_cases hv : validPath path = true
  swap
  · exact .inl ⟨fun c => hv ((validPath_iff _).mpr ⟨c.absolute, c.length_lt⟩), by simp [hv]⟩
  obtain ⟨habs, hlen⟩ := (validPath_iff _).mp hv
  by_cases hroot : text path = rootPath
  · refine .inl ⟨fun c => c.ne_root hroot, ?_⟩
    simp [hv, (stringEqual_iff path rootPath).mpr hroot]
  have hroot' : stringEqual path rootPath = false := stringEqual_of_ne hroot
  cases hfind : findNode t path with
  | none =>
    refine .inl ⟨fun c => ?_, by simp [hv, hroot']⟩
    obtain ⟨node, hnode, -⟩ := c.present
    rw [node_eq_none_iff.mpr hfind] at hnode
    cases hnode
  | some i =>
    have hnode := node_eq_some_of_find hfind
    have hname : (t.nodes i).name = text path :=
      (Slots.used_of_find (V := view) (findNode_eq t path ▸ hfind)).2
    by_cases hunder : (t.nodes i).type = .dir ∧ hasNodeUnder t i path = true
    · refine .inl ⟨fun c => ?_, by simp [hv, hroot', hunder]⟩
      obtain ⟨node, hn, hno⟩ := c.present
      obtain rfl := Option.some.inj (hn.symm.trans hnode)
      obtain ⟨j, hj, hb⟩ := (hasNodeUnder_iff hname).mp hunder.2
      exact hno hunder.1 j hj hb
    · refine .inr ⟨⟨habs, hlen, hroot, _, hnode, fun hd j hj hb =>
        hunder ⟨hd, (hasNodeUnder_iff hname).mpr ⟨j, hj, hb⟩⟩⟩, i, rfl, ?_⟩
      simp only [hv, hroot', hunder]
      rfl

structure Writable (t : Table) (p : List UInt8) : Prop where
  absolute : ∃ r, p = slash :: r
  length_lt : p.length < maxName
  present : ∃ node, t.node p = some node ∧ node.type = .file

theorem updateFile_cases (t : Table) (path : List UInt8) (data : Option (Mem UInt8))
    (f : Mem UInt8 → Node → Node) :
    (¬ (data.isSome ∧ Writable t (text path)) ∧ updateFile t path data f = (false, t)) ∨
    (Writable t (text path) ∧ ∃ d i, data = some d ∧ findNode t path = some i ∧
      (t.nodes i).type = .file ∧ updateFile t path data f = (true, t.modify i (f d))) := by
  unfold updateFile
  by_cases hv : validPath path = true
  swap
  · exact .inl ⟨fun c => hv ((validPath_iff _).mpr ⟨c.2.absolute, c.2.length_lt⟩), by simp [hv]⟩
  obtain ⟨habs, hlen⟩ := (validPath_iff _).mp hv
  cases data with
  | none => exact .inl ⟨by simp, by simp⟩
  | some d =>
    cases hfind : findNode t path with
    | none =>
      refine .inl ⟨fun c => ?_, by simp [hv]⟩
      obtain ⟨node, hnode, -⟩ := c.2.present
      rw [node_eq_none_iff.mpr hfind] at hnode
      cases hnode
    | some i =>
      have hnode := node_eq_some_of_find hfind
      by_cases hfile : (t.nodes i).type = .file
      · exact .inr ⟨⟨habs, hlen, _, hnode, hfile⟩, d, i, rfl, rfl, hfile, by simp [hv, hfile]⟩
      · refine .inl ⟨fun c => ?_, by simp [hv, hfile]⟩
        obtain ⟨node, hn, hf⟩ := c.2.present
        obtain rfl := Option.some.inj (hn.symm.trans hnode)
        exact hfile hf

structure KeepsEntry (f : Node → Node) : Prop where
  used : ∀ node, (f node).used = node.used
  inode : ∀ node, (f node).inode = node.inode
  type : ∀ node, (f node).type = node.type
  path : ∀ node, (f node).path = node.path
  size : ∀ node, node.size ≤ maxData → (f node).size ≤ maxData

theorem size_write (size : UInt64) (data : Mem UInt8) (node : Node) :
    (node.write size data).size.toNat = min size.toNat 4096 := by
  have hmax : maxData.toNat = 4096 := rfl
  simp only [Node.write, gt_iff_lt, UInt64.lt_iff_toNat_lt]
  split <;> omega

theorem size_append (size : UInt64) (data : Mem UInt8) {node : Node} (h : node.size ≤ maxData) :
    (node.append size data).size.toNat = min (node.size.toNat + size.toNat) 4096 := by
  have hmax : maxData.toNat = 4096 := rfl
  have hsub := UInt64.toNat_sub_of_le _ _ h
  rw [UInt64.le_iff_toNat_le] at h
  simp only [Node.append, gt_iff_lt, UInt64.lt_iff_toNat_lt, UInt64.toNat_add]
  split <;> omega

theorem keepsEntry_write (size : UInt64) (data : Mem UInt8) :
    KeepsEntry (Node.write size data) := by
  refine ⟨fun _ => rfl, fun _ => rfl, fun _ => rfl, fun _ => rfl, fun node _ => ?_⟩
  rw [UInt64.le_iff_toNat_le, size_write]
  exact min_le_right _ _

theorem keepsEntry_append (size : UInt64) (data : Mem UInt8) :
    KeepsEntry (Node.append size data) := by
  refine ⟨fun _ => rfl, fun _ => rfl, fun _ => rfl, fun _ => rfl, fun node h => ?_⟩
  rw [UInt64.le_iff_toNat_le, size_append size data h]
  exact min_le_right _ _

/-- A call fails and changes nothing, or it stores, releases or rewrites one node. -/
theorem exec_cases (t : Table) (op : Op) :
    exec t op = (false, t) ∨
    (∃ type path i, op.created = some path ∧ Creatable t (text path) ∧
      Slots.free view t.nodes = some i ∧ exec t op = (true, t.store i type path)) ∨
    (∃ path i, op = .delete path ∧ Deletable t (text path) ∧ findNode t path = some i ∧
      exec t op = (true, t.release i)) ∨
    (∃ path i f, op.created = none ∧ KeepsEntry f ∧ findNode t path = some i ∧
      (t.nodes i).type = .file ∧ exec t op = (true, t.modify i f)) := by
  cases op with
  | createFile path =>
    rcases createNode_cases .file t path with ⟨-, he⟩ | ⟨c, i, hi, he⟩
    · exact .inl he
    · exact .inr (.inl ⟨.file, path, i, rfl, c, hi, he⟩)
  | createDir path =>
    rcases createNode_cases .dir t path with ⟨-, he⟩ | ⟨c, i, hi, he⟩
    · exact .inl he
    · exact .inr (.inl ⟨.dir, path, i, rfl, c, hi, he⟩)
  | delete path =>
    rcases delete_cases t path with ⟨-, he⟩ | ⟨c, i, hi, he⟩
    · exact .inl he
    · exact .inr (.inr (.inl ⟨path, i, rfl, c, hi, he⟩))
  | writeFile path data size =>
    rcases updateFile_cases t path data (Node.write size) with ⟨-, he⟩ | ⟨-, d, i, -, hi, ht, he⟩
    · exact .inl he
    · exact .inr (.inr (.inr ⟨path, i, _, rfl, keepsEntry_write size d, hi, ht, he⟩))
  | appendFile path data size =>
    rcases updateFile_cases t path data (Node.append size) with ⟨-, he⟩ | ⟨-, d, i, -, hi, ht, he⟩
    · exact .inl he
    · exact .inr (.inr (.inr ⟨path, i, _, rfl, keepsEntry_append size d, hi, ht, he⟩))

end Wnu.Vfs
