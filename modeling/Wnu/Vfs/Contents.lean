import Wnu.Vfs.Invariant

/-! # File contents over runs

From the creation of a file until its deletion, reading it returns what the
successful writes and appends to its path have made of the empty string. What a
reused slot held before is cut off by the size, and calls on other paths touch
other slots.
-/

namespace Wnu.Vfs

open Text Memory

/-- What `wnu_vfs_read_file` lets the caller read. -/
def contentsOf (t : Table) (path : List UInt8) : Option (List UInt8) :=
  (readFile t path).map fun r => window r.1 r.2.toNat

/-- What a successful call makes of the contents of the file at `p`. -/
def applyTo (p : List UInt8) (c : List UInt8) : Op → List UInt8
  | .writeFile path (some d) size =>
    if text path = p then (window d size.toNat).take 4096 else c
  | .appendFile path (some d) size =>
    if text path = p then (c ++ window d size.toNat).take 4096 else c
  | _ => c

def succeeded (t : Table) (ops : List Op) : List Op :=
  (Runs.trace exec t ops).filterMap fun s => if s.2.2 then some s.2.1 else none

variable {t : Table} {i : Fin maxNodes} {path p : List UInt8}

theorem contents_write (size : UInt64) (d : Mem UInt8) (node : Node) :
    (node.write size d).contents = (window d size.toNat).take 4096 := by
  rw [Node.contents, size_write, take_window, min_comm]
  have hmax : maxData.toNat = 4096 := rfl
  have hk : (if size > maxData then maxData else size).toNat = min 4096 size.toNat := by
    simp only [gt_iff_lt, UInt64.lt_iff_toNat_lt]
    split <;> omega
  have hdata : (node.write size d).data = copyLoop node.data 0 d (min 4096 size.toNat) :=
    congrArg (copyLoop node.data 0 d) hk
  rw [hdata, window_copyLoop_zero]

theorem contents_append (size : UInt64) (d : Mem UInt8) {node : Node} (h : node.size ≤ maxData) :
    (node.append size d).contents = (node.contents ++ window d size.toNat).take 4096 := by
  have hmax : maxData.toNat = 4096 := rfl
  have hsub := UInt64.toNat_sub_of_le _ _ h
  have hs : node.size.toNat ≤ 4096 := by rwa [UInt64.le_iff_toNat_le, hmax] at h
  have hk : (if size > maxData - node.size then maxData - node.size else size).toNat =
      min (4096 - node.size.toNat) size.toNat := by
    simp only [gt_iff_lt, UInt64.lt_iff_toNat_lt]
    split <;> omega
  have hdata : (node.append size d).data =
      copyLoop node.data node.size.toNat d (min (4096 - node.size.toNat) size.toNat) :=
    congrArg (copyLoop node.data node.size.toNat d) hk
  have hsize : (node.append size d).size.toNat =
      node.size.toNat + min (4096 - node.size.toNat) size.toNat := by
    rw [size_append size d h]
    omega
  rw [Node.contents, hdata, hsize, window_copyLoop, Node.contents, List.take_append, take_window,
    take_window, length_window, Nat.min_eq_right hs]

theorem contentsOf_eq (h : Inv t) {node : Node} (hn : t.node (text path) = some node)
    (hf : node.type = .file) : contentsOf t path = some node.contents := by
  obtain ⟨i, hi, rfl⟩ := find_of_node_eq_some hn
  obtain ⟨habs, hterm, -⟩ := h.node _ _ hn
  have hlen : (text path).length < maxName := (name_of_node hn).2 ▸ Node.length_name_lt hterm
  have hv : validPath path = true := (validPath_iff _).mpr ⟨habs, hlen⟩
  simp [contentsOf, readFile, hv, hi, hf, Node.contents]

theorem node_updateFile (h : Inv t) {node : Node} (hn : t.node p = some node)
    (path : List UInt8) (data : Option (Mem UInt8)) {f : Mem UInt8 → Node → Node}
    (hf : ∀ d, KeepsEntry (f d)) :
    ((updateFile t path data f).2.node p = some node ∧
      ((updateFile t path data f).1 = true → text path ≠ p)) ∨
    ∃ d, data = some d ∧ text path = p ∧ (updateFile t path data f).1 = true ∧
      (updateFile t path data f).2.node p = some (f d node) := by
  rcases updateFile_cases t path data f with ⟨-, he⟩ | ⟨-, d, i, hd, hi, -, he⟩ <;> rw [he]
  · exact .inl ⟨hn, by simp⟩
  · obtain ⟨hu, hname⟩ := h.find_eq_some_iff.mp hi
    rw [node_modify h.distinct hu (hf d)]
    by_cases hp : p = (t.nodes i).name
    · obtain rfl : node = t.nodes i :=
        Option.some.inj (hn.symm.trans (hp ▸ h.node_name hu))
      exact .inr ⟨d, hd, hname.symm.trans hp.symm, rfl, if_pos hp⟩
    · exact .inl ⟨by rw [if_neg hp, hn], fun _ he => hp (by rw [hname, he])⟩

structure Added (t t' : Table) (p contents : List UInt8) : Prop where
  inv : Inv t'
  file : ∃ node, t'.node p = some node ∧ node.type = .file ∧ node.contents = contents
  node : ∀ q, q ≠ p → t'.node q = t.node q
  card : (Slots.usedSlots view t'.nodes).card = (Slots.usedSlots view t.nodes).card + 1

theorem added_createFile (h : Inv t) (c : Creatable t (text path)) :
    (createFile t path).1 = true ∧ Added t (createFile t path).2 (text path) [] := by
  rcases createNode_cases .file t path with ⟨hc, -⟩ | ⟨-, i, hi, he⟩
  · exact absurd c hc
  have hfree := Slots.used_eq_false_of_free hi
  rw [createFile, he]
  refine ⟨rfl, h.store hi c, ⟨_, by rw [node_store h.distinct hi c, if_pos rfl], rfl, rfl⟩, ?_, ?_⟩
  · intro q hq
    rw [node_store h.distinct hi c, if_neg hq]
  · exact Slots.card_usedSlots_store hfree rfl

theorem Added.writeFile {t' : Table} {contents : List UInt8} (h : Added t t' (text path) contents)
    (d : Mem UInt8) (size : UInt64) :
    (writeFile t' path (some d) size).1 = true ∧
      Added t (writeFile t' path (some d) size).2 (text path)
        ((window d size.toNat).take 4096) := by
  obtain ⟨node, hn, hf, -⟩ := h.file
  have habs := (h.inv.node _ _ hn).1
  have hlen : (text path).length < maxName :=
    (name_of_node hn).2 ▸ Node.length_name_lt (h.inv.node _ _ hn).2.1
  rw [Vfs.writeFile]
  rcases updateFile_cases t' path (some d) (Node.write size) with
    ⟨hw, -⟩ | ⟨-, e, i, he, hi, -, hupd⟩
  · exact absurd ⟨rfl, habs, hlen, node, hn, hf⟩ hw
  obtain rfl := Option.some.inj he
  obtain ⟨hu, hname⟩ := h.inv.find_eq_some_iff.mp hi
  have hkeep := keepsEntry_write size d
  have hnode := node_modify h.inv.distinct hu hkeep
  rw [hname] at hnode
  obtain rfl : node = t'.nodes i :=
    Option.some.inj (hn.symm.trans (hname ▸ h.inv.node_name hu))
  rw [hupd]
  refine ⟨rfl, h.inv.modify hu hkeep, ⟨_, by rw [hnode, if_pos rfl],
    (hkeep.type _).trans hf, contents_write size d _⟩, ?_, ?_⟩
  · intro q hq
    rw [hnode, if_neg hq, h.node q hq]
  · rw [← h.card, modify_nodes, Slots.usedSlots_replace hu ((hkeep.used _).trans hu)]

theorem node_exec (h : Inv t) {node : Node} (hn : t.node p = some node) (hf : node.type = .file)
    (op : Op) (hdel : (exec t op).1 = true → ∀ q, op = .delete q → text q ≠ p) :
    ∃ node', (exec t op).2.node p = some node' ∧ node'.type = .file ∧
      node'.contents = if (exec t op).1 then applyTo p node.contents op else node.contents := by
  have hcreate (type : NodeType) (path : List UInt8) :
      (createNode type t path).2.node p = some node := by
    rcases createNode_cases type t path with ⟨-, he⟩ | ⟨c, i, hi, he⟩ <;> rw [he]
    · exact hn
    · rw [node_store h.distinct hi c, if_neg (c.ne_of_node hn), hn]
  cases op with
  | createFile path => exact ⟨node, hcreate .file path, hf, by simp [applyTo]⟩
  | createDir path => exact ⟨node, hcreate .dir path, hf, by simp [applyTo]⟩
  | delete path =>
    refine ⟨node, ?_, hf, by simp [applyTo]⟩
    rw [exec] at hdel ⊢
    rcases delete_cases t path with ⟨-, he⟩ | ⟨-, i, hi, he⟩ <;> rw [he] at hdel ⊢
    · exact hn
    · obtain ⟨hu, hname⟩ := h.find_eq_some_iff.mp hi
      rw [node_release h.distinct hu, if_neg (by rw [hname]; exact (hdel rfl path rfl).symm), hn]
  | writeFile path data size =>
    rw [exec, writeFile]
    rcases node_updateFile h hn path data (keepsEntry_write size) with
      ⟨hsame, hne⟩ | ⟨d, rfl, hp, hok, hnew⟩
    · refine ⟨node, hsame, hf, ?_⟩
      split
      · rename_i hok
        cases data <;> simp [applyTo, hne hok]
      · rfl
    · refine ⟨_, hnew, hf, ?_⟩
      rw [hok, if_pos rfl, applyTo, if_pos hp, contents_write]
  | appendFile path data size =>
    rw [exec, appendFile]
    rcases node_updateFile h hn path data (keepsEntry_append size) with
      ⟨hsame, hne⟩ | ⟨d, rfl, hp, hok, hnew⟩
    · refine ⟨node, hsame, hf, ?_⟩
      split
      · rename_i hok
        cases data <;> simp [applyTo, hne hok]
      · rfl
    · refine ⟨_, hnew, hf, ?_⟩
      rw [hok, if_pos rfl, applyTo, if_pos hp, contents_append size d (h.node _ _ hn).2.2]

theorem type_exec (h : Inv t) {node : Node} (hn : t.node p = some node) (op : Op)
    (hdel : ∀ q, op = .delete q → Deletable t (text q) → text q ≠ p) :
    ∃ node', (exec t op).2.node p = some node' ∧ node'.type = node.type := by
  rcases exec_cases t op with he | ⟨type, path, i, -, c, hi, he⟩ | ⟨path, i, ho, c, hi, he⟩ |
    ⟨path, i, f, -, hf, hi, -, he⟩ <;> rw [he]
  · exact ⟨node, hn, rfl⟩
  · exact ⟨node, by rw [node_store h.distinct hi c, if_neg (c.ne_of_node hn), hn], rfl⟩
  · obtain ⟨hu, hname⟩ := h.find_eq_some_iff.mp hi
    have hne : p ≠ (t.nodes i).name := by
      rw [hname]
      exact (hdel path ho c).symm
    exact ⟨node, by rw [node_release h.distinct hu, if_neg hne, hn], rfl⟩
  · have hu := (h.find_eq_some_iff.mp hi).1
    rw [node_modify h.distinct hu hf]
    split
    · rename_i hp
      obtain rfl : node = t.nodes i := Option.some.inj (hn.symm.trans (hp ▸ h.node_name hu))
      exact ⟨_, rfl, hf.type _⟩
    · exact ⟨node, hn, rfl⟩

/-- Over a run that does not delete the file at `p`, its contents are the fold of the successful
calls. -/
theorem node_run (h : Inv t) {node : Node} (hn : t.node p = some node) (hf : node.type = .file)
    {ops : List Op} (hdel : ∀ q, .delete q ∈ succeeded t ops → text q ≠ p) :
    ∃ node', (Runs.run exec t ops).node p = some node' ∧ node'.type = .file ∧
      node'.contents = (succeeded t ops).foldl (applyTo p) node.contents := by
  induction ops generalizing t node with
  | nil => exact ⟨node, hn, hf, rfl⟩
  | cons op ops ih =>
    have hsucc : succeeded t (op :: ops) =
        (if (exec t op).1 then [op] else []) ++ succeeded (exec t op).2 ops := by
      cases hok : (exec t op).1 <;> simp [succeeded, hok]
    rw [hsucc] at hdel ⊢
    obtain ⟨node', hn', hf', hc'⟩ := node_exec h hn hf op fun hok q ho =>
      hdel q (by rw [hok, ho]; simp)
    obtain ⟨node'', hn'', hf'', hc''⟩ := ih (h.exec op) hn' hf' fun q hq =>
      hdel q (List.mem_append_right _ hq)
    refine ⟨node'', hn'', hf'', ?_⟩
    rw [hc'', hc', List.foldl_append]
    split <;> rfl

/-- Reading a file returns the fold, from the empty string, of the successful calls on its path
since its creation. -/
theorem contentsOf_run (h : Reachable t) (hc : (createFile t path).1 = true) (ops : List Op)
    (hdel : ∀ q, .delete q ∈ succeeded (createFile t path).2 ops → text q ≠ text path) :
    contentsOf (Runs.run exec (createFile t path).2 ops) path =
      some ((succeeded (createFile t path).2 ops).foldl (applyTo (text path)) []) := by
  have hinv := h.inv
  rcases createNode_cases .file t path with ⟨-, he⟩ | ⟨c, i, hi, he⟩
  · rw [createFile, he] at hc
    cases hc
  rw [createFile, he] at hdel ⊢
  have hstore : Inv (t.store i .file path) := hinv.store hi c
  obtain ⟨node, hn, hf, hcont⟩ := node_run hstore
    (node_store hinv.distinct hi c (text path) ▸ if_pos rfl) rfl hdel
  rw [contentsOf_eq (hstore.run ops) hn hf, hcont]
  rfl

theorem mem_of_mem_succeeded {op : Op} {ops : List Op} (h : op ∈ succeeded t ops) : op ∈ ops := by
  induction ops generalizing t with
  | nil => simp [succeeded] at h
  | cons op' ops ih =>
    cases hok : (exec t op').1 <;> simp only [succeeded, Runs.trace_cons, List.filterMap_cons, hok,
      if_true, Bool.false_eq_true, if_false] at h
    · exact List.mem_cons_of_mem _ (ih h)
    · rcases List.mem_cons.mp h with rfl | h
      · exact List.mem_cons_self
      · exact List.mem_cons_of_mem _ (ih h)

/-- A file is written and extended while another file comes and goes. -/
theorem contentsOf_run_example :
    let ops : List Op :=
      [.writeFile (ascii "/f") (some (literal "ab")) 2, .createFile (ascii "/g"),
        .delete (ascii "/g"), .appendFile (ascii "/f") (some (literal "cd")) 2]
    let t := (createFile (init staticTable) (ascii "/f")).2
    contentsOf (Runs.run exec t ops) (ascii "/f") =
      some ((succeeded t ops).foldl (applyTo (text (ascii "/f"))) []) := by
  apply contentsOf_run (reachable_init staticTable) (by decide +kernel) _
  intro q hq
  have hmem := mem_of_mem_succeeded hq
  simp only [List.mem_cons, reduceCtorEq, Op.delete.injEq, List.not_mem_nil, false_or, or_false]
    at hmem
  rw [hmem]
  decide

end Wnu.Vfs
