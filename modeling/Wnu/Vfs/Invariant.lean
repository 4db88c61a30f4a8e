import Wnu.Vfs.Operations

/-! # The representation invariant

Read as a map from paths to nodes, the table always has a root directory, and
every other path has its parent directory in the map. The deletion check keeps
this because a child by the last slash is a path with the prefix it looks for.
Inode numbers are given in increasing order until the counter wraps.
-/

namespace Wnu.Vfs

open Text Memory Components

/-- The invariant of the table, on the map from paths to nodes that it stores. -/
structure Inv (t : Table) : Prop where
  distinct : Slots.Distinct view t.nodes
  root : ∃ node, t.node rootPath = some node ∧ node.type = .dir
  node : ∀ p node, t.node p = some node →
    (∃ r, p = slash :: r) ∧ 0 ∈ node.path.toList ∧ node.size ≤ maxData
  parent : ∀ p node, t.node p = some node → p ≠ rootPath →
    ∃ par, t.node (parent slash p) = some par ∧ par.type = .dir

variable {t : Table} {i : Fin maxNodes} {path p : List UInt8} {type : NodeType}

theorem Inv.node_name (h : Inv t) (hi : (t.nodes i).used) :
    t.node (t.nodes i).name = some (t.nodes i) := Slots.lookup_key h.distinct hi

theorem node_eq_some_iff (hd : Slots.Distinct view t.nodes) {node : Node} :
    t.node p = some node ↔ ∃ i, (t.nodes i).used ∧ (t.nodes i).name = p ∧ t.nodes i = node :=
  Slots.lookup_eq_some_iff hd

theorem Inv.find_eq_some_iff (h : Inv t) :
    findNode t path = some i ↔ (t.nodes i).used ∧ (t.nodes i).name = text path := by
  rw [findNode_eq, Slots.find_eq_some_iff h.distinct]
  rfl

theorem name_of_node (h : t.node p = some node) : node.used ∧ node.name = p := by
  unfold Table.node Slots.lookup at h
  obtain ⟨i, hi, rfl⟩ := Option.map_eq_some_iff.mp h
  exact Slots.used_of_find hi

/-- The stored paths are closed under parents, so a node below a directory leads up to a child. -/
theorem Inv.exists_child (h : Inv t) {a : List UInt8} (ha : a ≠ []) {node : Node}
    (hp : t.node p = some node) (hb : Below slash a p) :
    ∃ q child, t.node q = some child ∧ Components.parent slash q = a := by
  have hclosed : ∀ q, (∃ node, t.node q = some node) → q ≠ rootPath →
      ∃ node, t.node (Components.parent slash q) = some node := fun q ⟨node, hq⟩ hroot =>
    (h.parent q node hq hroot).imp fun _ => And.left
  obtain ⟨q, ⟨child, hq⟩, -, hqp⟩ := Components.exists_child hclosed ha ⟨node, hp⟩ hb
  exact ⟨q, child, hq, hqp⟩

/-! ## The map after each operation -/

theorem node_store (hd : Slots.Distinct view t.nodes) (hi : Slots.free view t.nodes = some i)
    (c : Creatable t (text path)) (p : List UInt8) :
    (t.store i type path).node p =
      if p = text path then some (t.created i type path) else t.node p := by
  have hname : view.key (t.created i type path) = text path := name_created c.length_lt
  rw [← hname]
  exact Slots.lookup_store hd (Slots.used_eq_false_of_free hi) rfl (by rw [hname]; exact c.absent) p

theorem node_release (hd : Slots.Distinct view t.nodes) (hi : (t.nodes i).used)
    (p : List UInt8) :
    (t.release i).node p = if p = (t.nodes i).name then none else t.node p :=
  Slots.lookup_release hd hi rfl p

theorem name_of_keepsEntry {f : Node → Node} (hf : KeepsEntry f) (node : Node) :
    (f node).name = node.name := by rw [Node.name, hf.path, Node.name]

theorem node_modify (hd : Slots.Distinct view t.nodes) (hi : (t.nodes i).used)
    {f : Node → Node} (hf : KeepsEntry f) (p : List UInt8) :
    (t.modify i f).node p = if p = (t.nodes i).name then some (f (t.nodes i)) else t.node p := by
  have hname := name_of_keepsEntry hf (t.nodes i)
  rw [← hname]
  exact Slots.lookup_replace hd hi ((hf.used _).trans hi) hname p

theorem Inv.creatable_append (h : Inv t) {M name : List UInt8} {node : Node}
    (hn : t.node M = some node) (hdir : node.type = .dir) (hfree : slash ∉ name)
    (hlen : M.length + name.length + 1 < maxName) (habsent : t.node (M ++ slash :: name) = none)
    (hroom : (Slots.usedSlots view t.nodes).card < maxNodes) :
    Creatable t (M ++ slash :: name) := by
  obtain ⟨r, hr⟩ := (h.node _ _ hn).1
  have hne : M ≠ [] := fun h0 => by rw [h0] at hr; cases hr
  refine ⟨⟨r ++ slash :: name, by rw [hr]; rfl⟩, ?_, ?_, habsent, ?_, hroom⟩
  · rw [List.length_append, List.length_cons]
    omega
  · intro he
    have hl := congrArg List.length he
    rw [hr] at hl
    simp at hl
  · exact ⟨node, by rw [parent_append hfree hne, hn], hdir⟩

/-! ## Every call keeps the invariant -/

theorem Inv.store (h : Inv t) (hi : Slots.free view t.nodes = some i)
    (c : Creatable t (text path)) : Inv (t.store i type path) := by
  have hnode (p : List UInt8) : (t.store i type path).node p =
      if p = text path then some (t.created i type path) else t.node p :=
    node_store h.distinct hi c p
  have hold : ∀ q node, t.node q = some node → q ≠ text path := fun q node hq => c.ne_of_node hq
  have hlift : ∀ q node, t.node q = some node → (t.store i type path).node q = some node :=
    fun q node hq => by rw [hnode, if_neg (hold q node hq), hq]
  refine ⟨?_, ?_, ?_, ?_⟩
  · apply h.distinct.store
    intro j hj
    rw [view_key, view_key, name_created c.length_lt]
    exact hold _ _ (h.node_name hj)
  · obtain ⟨node, hn, hdir⟩ := h.root
    exact ⟨node, hlift _ _ hn, hdir⟩
  · intro q node hq
    rw [hnode] at hq
    split at hq
    · rename_i he
      obtain rfl := Option.some.inj hq
      exact ⟨he ▸ c.absolute, zero_mem_stringCopy _ _ (by decide) le_rfl, by simp [Table.created]⟩
    · exact h.node q node hq
  · intro q node hq hroot
    rw [hnode] at hq
    split at hq
    · rename_i he
      obtain ⟨par, hpar, hdir⟩ := c.parent
      exact ⟨par, he ▸ hlift _ _ hpar, hdir⟩
    · obtain ⟨par, hpar, hdir⟩ := h.parent q node hq hroot
      exact ⟨par, hlift _ _ hpar, hdir⟩

theorem Inv.release (h : Inv t) (hi : findNode t path = some i) (c : Deletable t (text path)) :
    Inv (t.release i) := by
  obtain ⟨hused, hname⟩ := (h.find_eq_some_iff).mp hi
  have hnode := node_release h.distinct hused
  rw [hname] at hnode
  have hlift : ∀ q node, t.node q = some node → q ≠ text path →
      (t.release i).node q = some node := fun q node hq hne => by rw [hnode, if_neg hne, hq]
  refine ⟨h.distinct.release rfl, ?_, ?_, ?_⟩
  · obtain ⟨node, hn, hdir⟩ := h.root
    exact ⟨node, hlift _ _ hn c.ne_root.symm, hdir⟩
  · intro q node hq
    rw [hnode] at hq
    split at hq
    · cases hq
    · exact h.node q node hq
  · intro q node hq hroot
    rw [hnode] at hq
    split at hq
    · cases hq
    · obtain ⟨par, hpar, hdir⟩ := h.parent q node hq hroot
      refine ⟨par, hlift _ _ hpar fun he => ?_, hdir⟩
      -- a child of the deleted path is a node under it, and its parent is a directory
      obtain ⟨r, hr⟩ := (h.node q node hq).1
      have hbelow : Below slash (text path) q :=
        below_of_parent_eq c.ne_root (by simp [hr]) he
      obtain ⟨node', hn', hno⟩ := c.present
      obtain rfl : par = node' := Option.some.inj (hpar.symm.trans (he ▸ hn'))
      obtain ⟨j, hj, hjq, -⟩ := (node_eq_some_iff h.distinct).mp hq
      exact hno hdir j hj (hjq ▸ hbelow)

theorem Inv.modify (h : Inv t) (hi : (t.nodes i).used) {f : Node → Node} (hf : KeepsEntry f) :
    Inv (t.modify i f) := by
  have hnode := node_modify h.distinct hi hf
  have hold := h.node_name hi
  have hlift : ∀ q node, t.node q = some node →
      ∃ node', (t.modify i f).node q = some node' ∧ node'.type = node.type := by
    intro q node hq
    rw [hnode]
    split
    · rename_i he
      obtain rfl : node = t.nodes i := Option.some.inj (hq.symm.trans (he ▸ hold))
      exact ⟨_, rfl, hf.type _⟩
    · exact ⟨node, hq, rfl⟩
  have hdrop : ∀ q node', (t.modify i f).node q = some node' → ∃ node, t.node q = some node := by
    intro q node' hq
    rw [hnode] at hq
    split at hq
    · rename_i he
      exact ⟨_, he ▸ hold⟩
    · exact ⟨_, hq⟩
  refine ⟨h.distinct.replace hi (name_of_keepsEntry hf _), ?_, ?_, ?_⟩
  · obtain ⟨node, hn, hdir⟩ := h.root
    obtain ⟨node', hn', ht'⟩ := hlift _ _ hn
    exact ⟨node', hn', ht'.trans hdir⟩
  · intro q node hq
    rw [hnode] at hq
    split at hq
    · rename_i he
      obtain rfl := Option.some.inj hq
      obtain ⟨habs, hterm, hsize⟩ := h.node _ _ hold
      exact ⟨he ▸ habs, (hf.path _).symm ▸ hterm, hf.size _ hsize⟩
    · exact h.node q node hq
  · intro q node hq hroot
    obtain ⟨node', hn'⟩ := hdrop q node hq
    obtain ⟨par, hpar, hdir⟩ := h.parent q node' hn' hroot
    obtain ⟨par', hpar', htp⟩ := hlift _ _ hpar
    exact ⟨par', hpar', htp.trans hdir⟩

theorem Inv.exec (h : Inv t) (op : Op) : Inv (exec t op).2 := by
  rcases exec_cases t op with he | ⟨type, path, i, -, c, hi, he⟩ | ⟨path, i, -, c, hi, he⟩ |
    ⟨path, i, f, -, hf, hi, -, he⟩ <;> rw [he]
  · exact h
  · exact h.store hi c
  · exact h.release hi c
  · exact h.modify (h.find_eq_some_iff.mp hi).1 hf

/-! ## The start of a run -/

/-- The table that `wnu_vfs_init` has made when it starts to create nodes holds the root alone. -/
theorem initRoot_eq (t : Table) : ∃ i, ((initRoot t).nodes i).used = true ∧
    ((initRoot t).nodes i).name = rootPath ∧ 0 ∈ ((initRoot t).nodes i).path.toList ∧
    ((initRoot t).nodes i).type = .dir ∧ ((initRoot t).nodes i).size = 0 ∧
    ((initRoot t).nodes i).inode = 1 ∧ (∀ j, ((initRoot t).nodes j).used → j = i) ∧
    (initRoot t).nextInode = 2 := by
  unfold initRoot
  dsimp only
  rw [allocNode_eq]
  generalize hc : (Table.mk (fun i =>
    { t.nodes i with
      used := false, inode := 0, size := 0, path := (t.nodes i).path.set 0 0 maxName_pos }) 1)
    = cleared
  have hfree : ∀ j, (cleared.nodes j).used = false := fun j => by rw [← hc]
  have hnext : cleared.nextInode = 1 := by rw [← hc]
  cases hf : Slots.free view cleared.nodes with
  | none =>
    have h0 := Slots.free_eq_none_iff.mp hf 0
    rw [view_used, hfree] at h0
    cases h0
  | some i =>
    refine ⟨i, ?_⟩
    simp only [Option.map_some, modify_nodes, modify_nextInode, Function.update_self, hnext,
      Node.name, text_stringCopy _ _ (show 0 < maxName by decide) le_rfl]
    refine ⟨trivial, rfl, zero_mem_stringCopy _ _ (by decide) le_rfl, trivial, trivial, trivial,
      ?_, rfl⟩
    intro j hj
    by_contra hji
    rw [Function.update_of_ne hji, Function.update_of_ne hji, hfree] at hj
    cases hj

theorem inv_initRoot (t : Table) : Inv (initRoot t) := by
  obtain ⟨i, hused, hname, hterm, hdir, hsize, -, honly, -⟩ := initRoot_eq t
  generalize initRoot t = s at *
  have hd : Slots.Distinct view s.nodes := fun j l hj hl _ => (honly j hj).trans (honly l hl).symm
  have hnode : ∀ p node, s.node p = some node → p = rootPath ∧ node = s.nodes i := by
    intro p node hp
    obtain ⟨j, hj, hjp, hjn⟩ := (node_eq_some_iff hd).mp hp
    obtain rfl := honly j hj
    exact ⟨hjp.symm.trans hname, hjn.symm⟩
  refine ⟨hd, ⟨s.nodes i, (node_eq_some_iff hd).mpr ⟨i, hused, hname, rfl⟩, hdir⟩, ?_,
    fun p node hp hne => absurd (hnode p node hp).1 hne⟩
  intro p node hp
  obtain ⟨rfl, rfl⟩ := hnode p node hp
  exact ⟨⟨[], rfl⟩, hterm, by rw [hsize]; decide⟩

/-- Every run from the root keeps the invariant. -/
theorem Inv.run (h : Inv t) (ops : List Op) : Inv (Runs.run Vfs.exec t ops) :=
  Runs.run_invariant (P := Inv) (fun _ op h => h.exec op) h ops

theorem Reachable.inv (h : Reachable t) : Inv t := by
  obtain ⟨t₀, ops, rfl⟩ := h
  exact ((inv_initRoot t₀).run initOps).run ops

end Wnu.Vfs
