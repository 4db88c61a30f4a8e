import Wnu.Vfs.Namespace

/-! # Listing a directory

Listing shows a node under a directory when a non-empty slash-free rest follows
the directory's path and one slash. Creation and deletion go by the last slash,
which also makes children of paths like `/a/` and `//c`. The three notions
agree on a table exactly when it holds no such path.
-/

namespace Wnu.Vfs

open Text Components

/-- The nodes that the loop of `wnu_vfs_list_dir` does not skip. -/
def listed (t : Table) (path : List UInt8) : List (Fin maxNodes) :=
  (List.finRange maxNodes).filter fun i =>
    (t.nodes i).used && isDirectChild path (t.nodes i).path.toList

/-- What `wnu_vfs_list_dir` writes for a node. -/
def entryLine (node : Node) : List UInt8 :=
  text (pathBasename node.path.toList) ++ (if node.type = .dir then ascii "/" else []) ++ ascii "\n"

/-- `wnu_vfs_list_dir`: what it writes to the console. -/
def listDir (t : Table) (path : List UInt8) : List UInt8 :=
  if !validPath path then ascii "invalid path\n"
  else match findNode t path with
    | none => ascii "not found\n"
    | some i =>
      if (t.nodes i).type ≠ .dir then ascii "not a directory\n"
      else (listed t path).flatMap fun j => entryLine (t.nodes j)

/-- Listing and deletion go by the parent that creation checks. -/
structure ChildrenAgree (t : Table) : Prop where
  children : ∀ path, isDir t path = true → ∀ i, i ∈ listed t path ↔
    (t.nodes i).used ∧ (t.nodes i).name ≠ rootPath ∧
      parentOf (t.nodes i).path.toList = text path
  once : ∀ i, (t.nodes i).used → (t.nodes i).name ≠ rootPath →
    ∃! j, (t.nodes j).used ∧ (t.nodes j).type = .dir ∧ i ∈ listed t (t.nodes j).path.toList
  delete : ∀ path, isDir t path = true → text path ≠ rootPath →
    ((delete t path).1 = false ↔ listDir t path ≠ [])

def AllProper (t : Table) : Prop :=
  ∀ i, (t.nodes i).used → (t.nodes i).name ≠ rootPath → Proper (t.nodes i).name

variable {t : Table} {i : Fin maxNodes} {path : List UInt8}

theorem isDir_iff (h : Inv t) :
    isDir t path = true ↔ ∃ node, t.node (text path) = some node ∧ node.type = .dir := by
  rw [isDir, hasType_iff h.distinct, lookup_eq_some_iff h.distinct]

theorem not_proper_rootPath : ¬ Proper rootPath := by decide

theorem mem_listed_iff (h : Inv t) (hdir : isDir t path = true) :
    i ∈ listed t path ↔ (t.nodes i).used ∧
      parentOf (t.nodes i).path.toList = text path ∧ Proper (t.nodes i).name := by
  obtain ⟨node, hn, -⟩ := (isDir_iff h).mp hdir
  obtain ⟨r, hr⟩ := (h.node _ _ hn).1
  simp only [listed, List.mem_filter, List.mem_finRange, true_and, Bool.and_eq_true]
  apply and_congr_right
  intro hu
  obtain ⟨⟨s, hs⟩, hterm, -⟩ := h.node _ _ (h.node_name hu)
  rw [isDirectChild_iff (by simp [hr]) hs, parentOf_eq hs (Node.length_name_lt hterm)]
  rfl

theorem listDir_of_isDir (h : Inv t) (hdir : isDir t path = true) :
    listDir t path = (listed t path).flatMap fun j => entryLine (t.nodes j) := by
  obtain ⟨node, hn, ht⟩ := (isDir_iff h).mp hdir
  obtain ⟨i, hi, rfl⟩ := find_of_node_eq_some hn
  have hv : validPath path = true :=
    (validPath_iff _).mpr ⟨(h.node _ _ hn).1, length_lt_of_node h hn⟩
  simp [listDir, hv, hi, ht]

theorem listDir_ne_nil_iff (h : Inv t) (hdir : isDir t path = true) :
    listDir t path ≠ [] ↔ ∃ i, i ∈ listed t path := by
  have hline : ∀ node, entryLine node ≠ [] := fun node => by simp [entryLine, ascii]
  rw [listDir_of_isDir h hdir, ne_eq, List.flatMap_eq_nil_iff, not_forall]
  simp only [not_forall]
  exact ⟨fun ⟨j, hj, _⟩ => ⟨j, hj⟩, fun ⟨j, hj⟩ => ⟨j, hj, hline _⟩⟩

theorem delete_eq_false_iff (h : Inv t) (hdir : isDir t path = true)
    (hroot : text path ≠ rootPath) :
    (delete t path).1 = false ↔
      ∃ i, (t.nodes i).used ∧ parentOf (t.nodes i).path.toList = text path := by
  obtain ⟨node, hn, -⟩ := (isDir_iff h).mp hdir
  have hadm : Namespace.Admits (text path) :=
    ⟨head?_eq_iff.mpr (h.node _ _ hn).1, Nat.le_of_lt_succ (length_lt_of_node h hn), hroot⟩
  rw [← Bool.not_eq_true, (delete_refines h path).1]
  have hiff : (namespaceOf t).CanDelete (text path) ↔
      ∀ q ∈ namespaceOf t, parentOf q ≠ text path :=
    ⟨fun c => c.childless, fun c => ⟨hadm, (mem_namespaceOf h.distinct).mpr ⟨node, hn⟩, c⟩⟩
  rw [hiff]
  push Not
  constructor
  · rintro ⟨q, hq, he⟩
    obtain ⟨node', hq⟩ := (mem_namespaceOf h.distinct).mp hq
    obtain ⟨j, hj, hname, -⟩ := (node_eq_some_iff h.distinct).mp hq
    obtain ⟨⟨s, hs⟩, hterm, -⟩ := h.node _ _ (h.node_name hj)
    refine ⟨j, hj, ?_⟩
    rw [parentOf_eq hs (Node.length_name_lt hterm), ← he, parentOf_eq_of_node h hq]
    exact congrArg (parent slash) hname
  · rintro ⟨j, hj, he⟩
    have hq := h.node_name hj
    refine ⟨_, (mem_namespaceOf h.distinct).mpr ⟨_, hq⟩, ?_⟩
    obtain ⟨⟨s, hs⟩, hterm, -⟩ := h.node _ _ hq
    rw [parentOf_eq_of_node h hq, ← he, parentOf_eq hs (Node.length_name_lt hterm)]
    rfl

theorem isDir_name (h : Inv t) (hi : (t.nodes i).used) (ht : (t.nodes i).type = .dir) :
    isDir t (t.nodes i).path.toList = true := (isDir_iff h).mpr ⟨_, h.node_name hi, ht⟩

theorem exists_parent (h : Inv t) (hi : (t.nodes i).used) (hroot : (t.nodes i).name ≠ rootPath) :
    ∃ j, (t.nodes j).used ∧ (t.nodes j).type = .dir ∧
      parentOf (t.nodes i).path.toList = (t.nodes j).name := by
  obtain ⟨⟨s, hs⟩, hterm, -⟩ := h.node _ _ (h.node_name hi)
  obtain ⟨par, hpar, hdir⟩ := h.parent _ _ (h.node_name hi) hroot
  obtain ⟨j, hj, hname, rfl⟩ := (node_eq_some_iff h.distinct).mp hpar
  exact ⟨j, hj, hdir, (parentOf_eq hs (Node.length_name_lt hterm)).trans hname.symm⟩

theorem parentOf_name_ne (h : Inv t) (hi : (t.nodes i).used) (hr : (t.nodes i).name = rootPath) :
    parentOf (t.nodes i).path.toList = rootPath := by
  obtain ⟨⟨s, hs⟩, hterm, -⟩ := h.node _ _ (h.node_name hi)
  rw [parentOf_eq hs (Node.length_name_lt hterm)]
  exact (congrArg (parent slash) hr).trans (parent_cons (by simp))

/-- On a table of the invariant, the notions of child agree exactly when every path is proper. -/
theorem childrenAgree_iff_allProper (h : Inv t) : ChildrenAgree t ↔ AllProper t := by
  constructor
  · intro c i hi hroot
    obtain ⟨j, hj, hdir, hpar⟩ := exists_parent h hi hroot
    have hlist := (c.children _ (isDir_name h hj hdir) i).mpr ⟨hi, hroot, hpar⟩
    exact ((mem_listed_iff h (isDir_name h hj hdir)).mp hlist).2.2
  · intro hp
    have hmem : ∀ path, isDir t path = true → ∀ i, i ∈ listed t path ↔ (t.nodes i).used ∧
        (t.nodes i).name ≠ rootPath ∧ parentOf (t.nodes i).path.toList = text path := by
      intro path hdir i
      rw [mem_listed_iff h hdir]
      constructor
      · rintro ⟨hu, hpar, hprop⟩
        exact ⟨hu, fun hr => not_proper_rootPath (hr ▸ hprop), hpar⟩
      · rintro ⟨hu, hroot, hpar⟩
        exact ⟨hu, hpar, hp i hu hroot⟩
    refine ⟨hmem, fun i hi hroot => ?_, fun path hdir hroot => ?_⟩
    · obtain ⟨j, hj, hdir, hpar⟩ := exists_parent h hi hroot
      refine ⟨j, ⟨hj, hdir, (hmem _ (isDir_name h hj hdir) i).mpr ⟨hi, hroot, hpar⟩⟩, ?_⟩
      rintro l ⟨hl, hldir, hlist⟩
      have hlpar := ((hmem _ (isDir_name h hl hldir) i).mp hlist).2.2
      exact h.distinct l j hl hj (hlpar.symm.trans hpar)
    · rw [delete_eq_false_iff h hdir hroot, listDir_ne_nil_iff h hdir]
      apply exists_congr
      intro i
      rw [hmem path hdir i]
      constructor
      · rintro ⟨hi, hpar⟩
        exact ⟨hi, fun hr => hroot (hpar.symm.trans (parentOf_name_ne h hi hr)), hpar⟩
      · rintro ⟨hi, -, hpar⟩
        exact ⟨hi, hpar⟩

/-! ## Runs that create proper paths -/

def CreatesProper (t : Table) (op : Op) : Prop :=
  (exec t op).1 = true → ∀ path ∈ op.created, Proper (text path)

theorem AllProper.exec (h : AllProper t) {op : Op} (hc : CreatesProper t op) :
    AllProper (exec t op).2 := by
  rcases exec_cases t op with he | ⟨type, path, i, ho, c, hi, he⟩ | ⟨path, i, -, -, -, he⟩ |
    ⟨path, i, f, -, hf, -, -, he⟩
  · rwa [he]
  · have hnew := hc (by rw [he]) path (by rw [ho]; rfl)
    rw [he]
    intro j hj hroot
    rcases eq_or_ne j i with rfl | hji
    · have hself : (t.store j type path).nodes j = t.created j type path :=
        Function.update_self ..
      rwa [hself, name_created c.length_lt]
    · have hother : (t.store i type path).nodes j = t.nodes j := Function.update_of_ne hji ..
      rw [hother] at hj hroot ⊢
      exact h j hj hroot
  · rw [he]
    intro j hj hroot
    rcases eq_or_ne j i with rfl | hji
    · simp [Table.release] at hj
    · have hother : (t.release i).nodes j = t.nodes j := Function.update_of_ne hji ..
      rw [hother] at hj hroot ⊢
      exact h j hj hroot
  · rw [he]
    intro j hj hroot
    have hname : ((t.modify i f).nodes j).name = (t.nodes j).name ∧
        ((t.modify i f).nodes j).used = (t.nodes j).used := by
      rcases eq_or_ne j i with rfl | hji
      · simp [name_of_keepsEntry hf, hf.used]
      · simp [hji]
    rw [hname.1] at hroot ⊢
    rw [hname.2] at hj
    exact h j hj hroot

theorem allProper_init (t₀ : Table) : AllProper (init t₀) := by
  have hroot : AllProper (initRoot t₀) := by
    obtain ⟨i, hi, hname, -, -, -, -, honly, -⟩ := initRoot_eq t₀
    generalize initRoot t₀ = s at *
    exact fun j hj hne => absurd (honly j hj ▸ hname) hne
  have hops : ∀ op ∈ initOps, ∀ path ∈ op.created, Proper (text path) := by decide
  rw [init]
  generalize initRoot t₀ = s at hroot
  generalize initOps = ops at hops
  induction ops generalizing s with
  | nil => exact hroot
  | cons op ops ih =>
    refine ih _ (hroot.exec fun _ => hops op (by simp)) fun op' ho => ?_
    exact hops op' (by simp [ho])

/-- In a reachable table the notions of child agree exactly when every path is proper, and they do
in every table that a run with proper creations alone reaches. -/
theorem run_childrenAgree (t₀ : Table) (ops : List Op) :
    (ChildrenAgree (Runs.run exec (init t₀) ops) ↔ AllProper (Runs.run exec (init t₀) ops)) ∧
    (Runs.Along exec CreatesProper (init t₀) ops →
      ChildrenAgree (Runs.run exec (init t₀) ops)) := by
  have h : Inv (Runs.run exec (init t₀) ops) := Reachable.inv ⟨t₀, ops, rfl⟩
  refine ⟨childrenAgree_iff_allProper h, fun hc => (childrenAgree_iff_allProper h).mpr ?_⟩
  exact Runs.run_invariant_along (fun _ _ hp hc => hp.exec hc) (allProper_init t₀) hc

/-- After `mkdir /a` and `touch /a/`, listing `/a` shows nothing and deleting `/a` fails. -/
theorem not_childrenAgree_trailing_slash :
    let t := Runs.run exec (init staticTable) [.createDir (ascii "/a"), .createFile (ascii "/a/")]
    Reachable t ∧ listDir t (ascii "/a") = [] ∧ (delete t (ascii "/a")).1 = false ∧
      ¬ ChildrenAgree t := by
  intro t
  have hlist : listDir t (ascii "/a") = [] := by decide +kernel
  have hdel : (delete t (ascii "/a")).1 = false := by decide +kernel
  have hdir : isDir t (ascii "/a") = true := by decide +kernel
  refine ⟨(reachable_init staticTable).run _, hlist, hdel, fun c => ?_⟩
  exact (c.delete _ hdir (by decide)).mp hdel hlist

end Wnu.Vfs
