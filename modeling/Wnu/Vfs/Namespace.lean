import Wnu.Vfs.Invariant

/-! # The namespace of the file system

Seen from outside, the table is a finite map from paths to file types. Creation
inserts a path whose parent is a directory while there is room, deletion erases
a path that is no path's parent, and the other calls only look paths up. The
table refines this map: the prefix scan of deletion finds a node exactly when
the map has a child.
-/

namespace Wnu.Vfs

open Text Memory Components

abbrev Namespace := Finmap fun _ : List UInt8 => NodeType

namespace Namespace

variable (m : Namespace) (p : List UInt8)

structure Admits (p : List UInt8) : Prop where
  absolute : p.head? = some slash
  length : p.length ≤ 63
  ne_root : p ≠ rootPath

/-- A path can be created: it is new, its parent is a directory, and there is room. -/
structure CanCreate : Prop extends Admits p where
  absent : p ∉ m
  parent : m.lookup (parentOf p) = some .dir
  room : m.keys.card < 128

structure CanDelete : Prop extends Admits p where
  present : p ∈ m
  childless : ∀ q ∈ m, parentOf q ≠ p

end Namespace

def namespaceOf (t : Table) : Namespace := Slots.toFinmap view t.nodes Node.type

variable {t : Table} {i : Fin maxNodes} {path p : List UInt8}

theorem lookup_namespaceOf (hd : Slots.Distinct view t.nodes) (p : List UInt8) :
    (namespaceOf t).lookup p = (t.node p).map Node.type := Slots.lookup_toFinmap _ hd p

theorem mem_namespaceOf (hd : Slots.Distinct view t.nodes) :
    p ∈ namespaceOf t ↔ ∃ node, t.node p = some node := by
  rw [← Finmap.lookup_isSome, lookup_namespaceOf hd, Option.isSome_map, Option.isSome_iff_exists]

theorem card_namespaceOf (hd : Slots.Distinct view t.nodes) :
    (namespaceOf t).keys.card = (Slots.usedSlots view t.nodes).card :=
  Slots.card_keys_toFinmap _ hd

theorem lookup_eq_some_iff (hd : Slots.Distinct view t.nodes) {type : NodeType} :
    (namespaceOf t).lookup p = some type ↔ ∃ node, t.node p = some node ∧ node.type = type := by
  rw [lookup_namespaceOf hd, Option.map_eq_some_iff]

theorem text_of_node (hn : ∃ node, t.node p = some node) : text p = p := by
  obtain ⟨node, hn⟩ := hn
  rw [← (name_of_node hn).2, Node.name, text_text]

theorem head?_eq_iff : p.head? = some slash ↔ ∃ r, p = slash :: r := by
  cases p <;> simp

theorem length_lt_of_node (h : Inv t) {node : Node} (hn : t.node p = some node) :
    p.length < maxName :=
  (name_of_node hn).2 ▸ Node.length_name_lt (h.node p node hn).2.1

theorem parentOf_eq_of_node (h : Inv t) {node : Node} (hn : t.node p = some node) :
    parentOf p = parent slash p := by
  have ht := text_of_node ⟨node, hn⟩
  obtain ⟨r, hr⟩ := (h.node p node hn).1
  have hlen := length_lt_of_node h hn
  rw [← ht] at hr hlen
  rw [parentOf_eq hr hlen, ht]

theorem creatable_iff (h : Inv t) (path : List UInt8) :
    Creatable t (text path) ↔ (namespaceOf t).CanCreate (text path) := by
  have hd := h.distinct
  have hpar (ha : ∃ r, text path = slash :: r) (hl : (text path).length < maxName) :
      parentOf (text path) = parent slash (text path) := by
    obtain ⟨r, hr⟩ := ha
    rw [← text_text] at hr hl
    rw [parentOf_eq hr hl, text_text]
  constructor
  · intro c
    refine ⟨⟨head?_eq_iff.mpr c.absolute, Nat.le_of_lt_succ c.length_lt, c.ne_root⟩, ?_, ?_, ?_⟩
    · rw [mem_namespaceOf hd, c.absent]
      simp
    · rw [hpar c.absolute c.length_lt, lookup_eq_some_iff hd]
      exact c.parent
    · rw [card_namespaceOf hd]
      exact c.room
  · intro c
    have ha := head?_eq_iff.mp c.absolute
    have hl := Nat.lt_succ_of_le c.length
    refine ⟨ha, hl, c.ne_root, ?_, ?_, ?_⟩
    · have := c.absent
      rw [mem_namespaceOf hd] at this
      exact Option.eq_none_iff_forall_ne_some.mpr fun node hn => this ⟨node, hn⟩
    · rw [← lookup_eq_some_iff hd, ← hpar ha hl]
      exact c.parent
    · rw [← card_namespaceOf hd]
      exact c.room

/-- The deletion scan refuses a directory exactly when the namespace has a child of it. -/
theorem deletable_iff (h : Inv t) (path : List UInt8) :
    Deletable t (text path) ↔ (namespaceOf t).CanDelete (text path) := by
  have hd := h.distinct
  constructor
  · intro c
    obtain ⟨node, hn, hno⟩ := c.present
    refine ⟨⟨head?_eq_iff.mpr c.absolute, Nat.le_of_lt_succ c.length_lt, c.ne_root⟩,
      (mem_namespaceOf hd).mpr ⟨node, hn⟩, fun q hq he => ?_⟩
    obtain ⟨node', hq⟩ := (mem_namespaceOf hd).mp hq
    rw [parentOf_eq_of_node h hq] at he
    have hroot : q ≠ rootPath := by
      rintro rfl
      exact c.ne_root he.symm
    obtain ⟨par, hpar, hdir⟩ := h.parent q node' hq hroot
    obtain rfl : par = node := Option.some.inj (hpar.symm.trans (he ▸ hn))
    obtain ⟨r, hr⟩ := (h.node q node' hq).1
    obtain ⟨j, hj, hjq, -⟩ := (node_eq_some_iff hd).mp hq
    exact hno hdir j hj (hjq ▸ below_of_parent_eq c.ne_root (by simp [hr]) he)
  · intro c
    obtain ⟨node, hn⟩ := (mem_namespaceOf hd).mp c.present
    have ha := head?_eq_iff.mp c.absolute
    refine ⟨ha, Nat.lt_succ_of_le c.length, c.ne_root, node, hn, fun _ j hj hb => ?_⟩
    obtain ⟨r, hr⟩ := ha
    obtain ⟨q, node', hq, hqp⟩ := h.exists_child (by simp [hr]) (h.node_name hj) hb
    have hmem := (mem_namespaceOf hd).mpr ⟨node', hq⟩
    exact c.childless q hmem ((parentOf_eq_of_node h hq).trans hqp)

theorem writable_iff (h : Inv t) (path : List UInt8) :
    Writable t (text path) ↔ (namespaceOf t).lookup (text path) = some .file := by
  rw [lookup_eq_some_iff h.distinct]
  refine ⟨fun c => c.present, fun hp => ?_⟩
  obtain ⟨node, hn, hf⟩ := hp
  exact ⟨(h.node _ _ hn).1, length_lt_of_node h hn, node, hn, hf⟩

theorem hasType_iff (hd : Slots.Distinct view t.nodes) (type : NodeType) (path : List UInt8) :
    hasType type t path = true ↔ (namespaceOf t).lookup (text path) = some type := by
  rw [lookup_namespaceOf hd, ← map_findNode]
  unfold hasType
  cases findNode t path <;> simp

theorem exists'_iff (hd : Slots.Distinct view t.nodes) (path : List UInt8) :
    exists' t path = true ↔ text path ∈ namespaceOf t := by
  rw [mem_namespaceOf hd, exists', ← map_findNode]
  cases findNode t path <;> simp

theorem readFile_isSome_iff (h : Inv t) (path : List UInt8) :
    (readFile t path).isSome ↔ (namespaceOf t).lookup (text path) = some .file := by
  rw [← writable_iff h, readFile]
  by_cases hv : validPath path = true
  · obtain ⟨ha, hl⟩ := (validPath_iff _).mp hv
    have hw : Writable t (text path) ↔
        ∃ node, (findNode t path).map t.nodes = some node ∧ node.type = .file := by
      rw [map_findNode]
      exact ⟨fun c => c.present, fun c => ⟨ha, hl, c⟩⟩
    rw [hw]
    cases findNode t path with
    | none => simp [hv]
    | some i => by_cases ht : (t.nodes i).type = .file <;> simp [hv, ht]
  · have hw : ¬ Writable t (text path) := fun c =>
      hv ((validPath_iff _).mpr ⟨c.absolute, c.length_lt⟩)
    simp [hv, hw]

/-! ## What each call does to the namespace -/

theorem namespaceOf_store (hd : Slots.Distinct view t.nodes)
    (hi : Slots.free view t.nodes = some i) (c : Creatable t (text path)) (type : NodeType) :
    namespaceOf (t.store i type path) = (namespaceOf t).insert (text path) type := by
  have hd' : Slots.Distinct view (t.store i type path).nodes := by
    apply hd.store
    intro j hj hjp
    rw [view_key, view_key, name_created c.length_lt] at hjp
    exact c.ne_of_node ((node_eq_some_iff hd).mpr ⟨j, hj, hjp, rfl⟩) rfl
  apply Finmap.ext_lookup
  intro p
  rw [lookup_namespaceOf hd', node_store hd hi c]
  split
  · rename_i hp
    rw [hp, Finmap.lookup_insert]
    rfl
  · rename_i hp
    rw [Finmap.lookup_insert_of_ne _ hp, lookup_namespaceOf hd]

theorem namespaceOf_release (hd : Slots.Distinct view t.nodes) (hi : (t.nodes i).used) :
    namespaceOf (t.release i) = (namespaceOf t).erase (t.nodes i).name := by
  apply Finmap.ext_lookup
  intro p
  rw [lookup_namespaceOf (hd.release rfl), node_release hd hi]
  split
  · rename_i hp
    rw [hp, Finmap.lookup_erase]
    rfl
  · rename_i hp
    rw [Finmap.lookup_erase_ne hp, lookup_namespaceOf hd]

theorem namespaceOf_modify (hd : Slots.Distinct view t.nodes) (hi : (t.nodes i).used)
    {f : Node → Node} (hf : KeepsEntry f) : namespaceOf (t.modify i f) = namespaceOf t := by
  have hd' : Slots.Distinct view (t.modify i f).nodes :=
    hd.replace hi (name_of_keepsEntry hf _)
  apply Finmap.ext_lookup
  intro p
  rw [lookup_namespaceOf hd', lookup_namespaceOf hd, node_modify hd hi hf]
  split
  · rename_i hp
    have hold := (node_eq_some_iff hd).mpr ⟨i, hi, hp.symm, rfl⟩
    rw [hold, Option.map_some, Option.map_some, hf.type]
  · rfl

/-- The calls on a table act on a namespace as on the map alone, and a call that fails changes
nothing of the table. -/
structure Refines (t : Table) (m : Namespace) : Prop where
  exists' : ∀ path, exists' t path = true ↔ text path ∈ m
  isDir : ∀ path, isDir t path = true ↔ m.lookup (text path) = some .dir
  isFile : ∀ path, isFile t path = true ↔ m.lookup (text path) = some .file
  readFile : ∀ path, (readFile t path).isSome ↔ m.lookup (text path) = some .file
  createFile : ∀ path, ((createFile t path).1 = true ↔ m.CanCreate (text path)) ∧
    ((createFile t path).1 = true →
      namespaceOf (createFile t path).2 = m.insert (text path) .file)
  createDir : ∀ path, ((createDir t path).1 = true ↔ m.CanCreate (text path)) ∧
    ((createDir t path).1 = true →
      namespaceOf (createDir t path).2 = m.insert (text path) .dir)
  delete : ∀ path, ((delete t path).1 = true ↔ m.CanDelete (text path)) ∧
    ((delete t path).1 = true → namespaceOf (delete t path).2 = m.erase (text path))
  writeFile : ∀ path data size,
    ((writeFile t path (some data) size).1 = true ↔ m.lookup (text path) = some .file) ∧
    namespaceOf (writeFile t path (some data) size).2 = m
  appendFile : ∀ path data size,
    ((appendFile t path (some data) size).1 = true ↔ m.lookup (text path) = some .file) ∧
    namespaceOf (appendFile t path (some data) size).2 = m
  failed : ∀ op, (exec t op).1 = false → (exec t op).2 = t

theorem createNode_refines (h : Inv t) (type : NodeType) (path : List UInt8) :
    ((createNode type t path).1 = true ↔ (namespaceOf t).CanCreate (text path)) ∧
    ((createNode type t path).1 = true →
      namespaceOf (createNode type t path).2 = (namespaceOf t).insert (text path) type) := by
  rw [← creatable_iff h]
  rcases createNode_cases type t path with ⟨hc, he⟩ | ⟨hc, i, hi, he⟩ <;> rw [he]
  · simp [hc]
  · exact ⟨by simp [hc], fun _ => namespaceOf_store h.distinct hi hc type⟩

theorem delete_refines (h : Inv t) (path : List UInt8) :
    ((delete t path).1 = true ↔ (namespaceOf t).CanDelete (text path)) ∧
    ((delete t path).1 = true →
      namespaceOf (delete t path).2 = (namespaceOf t).erase (text path)) := by
  rw [← deletable_iff h]
  rcases delete_cases t path with ⟨hc, he⟩ | ⟨hc, i, hi, he⟩ <;> rw [he]
  · simp [hc]
  · obtain ⟨hu, hname⟩ := h.find_eq_some_iff.mp hi
    exact ⟨by simp [hc], fun _ => hname ▸ namespaceOf_release h.distinct hu⟩

theorem updateFile_refines (h : Inv t) (path : List UInt8) (data : Mem UInt8)
    {f : Mem UInt8 → Node → Node} (hf : KeepsEntry (f data)) :
    ((updateFile t path (some data) f).1 = true ↔
      (namespaceOf t).lookup (text path) = some .file) ∧
    namespaceOf (updateFile t path (some data) f).2 = namespaceOf t := by
  rw [← writable_iff h]
  rcases updateFile_cases t path (some data) f with ⟨hc, he⟩ | ⟨hc, d, i, hd, hi, -, he⟩ <;> rw [he]
  · simpa using hc
  · obtain rfl := Option.some.inj hd
    exact ⟨by simp [hc], namespaceOf_modify h.distinct (h.find_eq_some_iff.mp hi).1 hf⟩

/-- Every reachable table refines its namespace. -/
theorem reachable_refines (h : Reachable t) : Refines t (namespaceOf t) where
  exists' := exists'_iff h.inv.distinct
  isDir := hasType_iff h.inv.distinct .dir
  isFile := hasType_iff h.inv.distinct .file
  readFile := readFile_isSome_iff h.inv
  createFile := createNode_refines h.inv .file
  createDir := createNode_refines h.inv .dir
  delete := delete_refines h.inv
  writeFile path data size := updateFile_refines h.inv path data (keepsEntry_write size data)
  appendFile path data size := updateFile_refines h.inv path data (keepsEntry_append size data)
  failed op hop := by
    rcases exec_cases t op with he | ⟨_, _, _, -, -, -, he⟩ | ⟨_, _, -, -, -, he⟩ |
      ⟨_, _, _, -, -, -, -, he⟩ <;> rw [he] at hop ⊢ <;> cases hop

/-- The table that `wnu_vfs_init` makes refines its namespace. -/
theorem reachable_refines_init : Refines (init staticTable) (namespaceOf (init staticTable)) :=
  reachable_refines (reachable_init staticTable)

end Wnu.Vfs
