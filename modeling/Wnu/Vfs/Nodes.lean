import Wnu.Memory.Bytes
import Wnu.Slots.Table
import Wnu.Text.CString

/-! # The node table

The file system keeps its nodes in one array. A node is found by comparing
paths over the used slots, and a new node takes the first unused slot with the
next inode number; the rest of the slot keeps what it held.
-/

namespace Wnu.Vfs

open Text Memory

/-- `WNU_VFS_MAX_NODES` -/
abbrev maxNodes : ℕ := 128

abbrev maxName : ℕ := 64

theorem maxName_pos : 0 < maxName := by decide

abbrev maxData : UInt64 := 4096

/-- `wnu_vfs_node_type` -/
inductive NodeType | file | dir
  deriving DecidableEq, Repr

/-- `struct wnu_vfs_node` -/
structure Node where
  used : Bool
  inode : UInt64
  type : NodeType
  path : Vector UInt8 maxName
  data : Mem UInt8
  size : UInt64

/-- The static state of the file system: `nodes` and `next_inode`. -/
structure Table where
  nodes : Fin maxNodes → Node
  nextInode : UInt64

/-- The byte `'/'`. -/
abbrev slash : UInt8 := '/'.toUInt8

/-- The path `"/"`. -/
abbrev rootPath : List UInt8 := [slash]

def Node.name (node : Node) : List UInt8 := text node.path.toList

/-- The contents of a node: the bytes of `data` that `size` counts. -/
def Node.contents (node : Node) : List UInt8 := window node.data node.size.toNat

def Table.modify (t : Table) (i : Fin maxNodes) (f : Node → Node) : Table :=
  { t with nodes := Function.update t.nodes i (f (t.nodes i)) }

/-- `find_node` -/
def findNode (t : Table) (path : List UInt8) : Option (Fin maxNodes) :=
  Fin.find? fun i => (t.nodes i).used && stringEqual (t.nodes i).path.toList path

/-- `alloc_node` -/
def allocNode (t : Table) : Option (Fin maxNodes × Table) :=
  (Fin.find? fun i => !(t.nodes i).used).map fun i =>
    (i, { t.modify i fun node =>
            { node with
              used := true, inode := t.nextInode, size := 0, path := node.path.set 0 0 maxName_pos }
          with nextInode := t.nextInode + 1 })

/-- `valid_path` -/
def validPath (path : List UInt8) : Bool :=
  if path.headD 0 ≠ slash then false
  else if stringLen path ≥ maxName then false
  else true

def view : Slots.View Node (List UInt8) := ⟨Node.used, Node.name⟩

@[simp] theorem view_used (node : Node) : view.used node = node.used := rfl
@[simp] theorem view_key (node : Node) : view.key node = node.name := rfl

@[simp] theorem modify_nodes (t : Table) (i : Fin maxNodes) (f : Node → Node) :
    (t.modify i f).nodes = Function.update t.nodes i (f (t.nodes i)) := rfl
@[simp] theorem modify_nextInode (t : Table) (i : Fin maxNodes) (f : Node → Node) :
    (t.modify i f).nextInode = t.nextInode := rfl

theorem findNode_eq (t : Table) (path : List UInt8) :
    findNode t path = Slots.find view t.nodes (text path) := by
  refine congrArg Fin.find? (funext fun i => ?_)
  rw [Bool.eq_iff_iff]
  simp only [Bool.and_eq_true, stringEqual_iff, decide_eq_true_eq]
  rfl

theorem validPath_iff (path : List UInt8) :
    validPath path = true ↔ (∃ r, text path = slash :: r) ∧ (text path).length < maxName := by
  have h0 : slash ≠ 0 := by decide
  cases path with
  | nil => simp [validPath, h0.symm]
  | cons c s =>
    rcases eq_or_ne c slash with rfl | hc
    · simp [validPath, text_cons_of_ne h0]
    · rcases eq_or_ne c 0 with rfl | hz
      · simp [validPath, hc]
      · simp [validPath, text_cons_of_ne hz, hc]

theorem Node.length_name_lt {node : Node} (h : 0 ∈ node.path.toList) :
    node.name.length < maxName := by
  have hp : node.name <+: node.path.toList := List.takeWhile_prefix _
  have hne : node.name.length ≠ node.path.toList.length := fun he =>
    ne_zero_of_mem_text (hp.eq_of_length he ▸ h) rfl
  have hl := hp.length_le
  rw [Vector.length_toList] at hl hne
  omega

end Wnu.Vfs
