import Wnu.Vfs.Listing

/-! # Walking the tree

The walk prints a node and then walks the nodes that listing shows under it. Each of
them has a longer path, and a path fits in its array, so the recursion is bounded.
-/

namespace Wnu.Vfs

open Text Components

/-- `tree_indent` -/
def treeIndent (depth : ℕ) : List UInt8 := (List.replicate depth (ascii "  ")).flatten

/-- What `tree_walk` writes for a node before it walks on. -/
def treeLine (path : List UInt8) (node : Node) : List UInt8 :=
  (if stringEqual path rootPath then ascii "/" else text (pathBasename node.path.toList)) ++
    (if node.type = .dir ∧ !stringEqual path rootPath then ascii "/" else []) ++ ascii "\n"

/-- The body of `tree_walk`, with what its calls of itself write for a path. -/
def treeNode (t : Table) (walk : List UInt8 → List UInt8) (path : List UInt8) (depth : ℕ) :
    List UInt8 :=
  match findNode t path with
  | none => []
  | some n =>
    treeIndent depth ++ treeLine path (t.nodes n) ++
      if (t.nodes n).type ≠ .dir then []
      else (listed t path).flatMap fun i => walk (t.nodes i).path.toList

/-- `tree_walk`, with a bound on the depth of the recursion. -/
def treeWalk (t : Table) : ℕ → List UInt8 → ℕ → List UInt8
  | 0, _, _ => []
  | fuel + 1, path, depth => treeNode t (treeWalk t fuel · (depth + 1)) path depth

/-- `wnu_vfs_tree`: what it writes to the console. -/
def tree (t : Table) (path : List UInt8) : List UInt8 :=
  if !validPath path then ascii "tree: invalid path\n"
  else if !exists' t path then ascii "tree: not found\n"
  else treeWalk t (maxName + 1) path 0

variable {t : Table} {i : Fin maxNodes} {path : List UInt8}

theorem length_lt_of_isDirectChild {child : List UInt8} (h : isDirectChild path child = true) :
    (text path).length < (text child).length := by
  by_cases hroot : text path = rootPath
  · obtain ⟨c, hne, -, hc⟩ := (isDirectChild_root hroot).mp h
    have hpos := List.length_pos_of_ne_nil hne
    rw [hroot, hc, List.length_singleton, List.length_cons]
    omega
  · obtain ⟨c, -, -, hc⟩ := (isDirectChild_of_ne_root hroot).mp h
    rw [hc, List.length_append, List.length_cons]
    omega

theorem length_lt_of_mem_listed (h : i ∈ listed t path) :
    (text path).length < (text (t.nodes i).path.toList).length := by
  simp only [listed, List.mem_filter, Bool.and_eq_true] at h
  exact length_lt_of_isDirectChild h.2.2

theorem Node.length_name_le (node : Node) : node.name.length ≤ maxName := by
  have hprefix := (prefix_text node.path.toList).length_le
  rwa [Vector.length_toList] at hprefix

theorem findNode_of_long (h : maxName < (text path).length) : findNode t path = none := by
  rw [Option.eq_none_iff_forall_ne_some]
  intro i hi
  have hle := (t.nodes i).length_name_le
  rw [(name_of_node (node_eq_some_of_find hi)).2] at hle
  omega

theorem treeWalk_of_long (h : maxName < (text path).length) (fuel depth : ℕ) :
    treeWalk t fuel path depth = [] := by
  cases fuel with
  | zero => rfl
  | succ fuel =>
    unfold treeWalk treeNode
    rw [findNode_of_long h]

theorem treeNode_congr {walk walk' : List UInt8 → List UInt8}
    (h : ∀ i ∈ listed t path, walk (t.nodes i).path.toList = walk' (t.nodes i).path.toList)
    (depth : ℕ) : treeNode t walk path depth = treeNode t walk' path depth := by
  unfold treeNode
  rw [List.flatMap_congr h]

/-- The bound does not show: if it covers the length of an array of a path, the walk does not
depend on it. -/
theorem treeWalk_of_le {fuel fuel' : ℕ} (h : maxName < fuel + (text path).length)
    (h' : maxName < fuel' + (text path).length) (depth : ℕ) :
    treeWalk t fuel path depth = treeWalk t fuel' path depth := by
  induction fuel generalizing fuel' path depth with
  | zero => rw [treeWalk_of_long (by omega), treeWalk_of_long (by omega)]
  | succ fuel ih =>
    cases fuel' with
    | zero => rw [treeWalk_of_long (by omega), treeWalk_of_long (by omega)]
    | succ fuel' =>
      apply treeNode_congr
      intro i hi
      have hlt := length_lt_of_mem_listed hi
      exact ih (by omega) (by omega) (depth + 1)

end Wnu.Vfs
