import Wnu.Vfs.Invariant

/-! # Inode numbers and the representation of reachable tables

A creation that succeeds gives its node the value of `next_inode` and counts it
up. As long as the counter does not wrap, the numbers given in a run increase,
so the used nodes have distinct numbers and none is given twice.
-/

namespace Wnu.Vfs

open Text Components

variable {t : Table} {i : Fin maxNodes}

structure InodeInv (t : Table) : Prop where
  lt : ∀ i, (t.nodes i).used → (t.nodes i).inode < t.nextInode
  distinct : ∀ i j, (t.nodes i).used → (t.nodes j).used →
    (t.nodes i).inode = (t.nodes j).inode → i = j

def creates (t : Table) (op : Op) : Bool := op.created.isSome && (exec t op).1

def given (t : Table) (op : Op) : Option UInt64 :=
  if creates t op then
    op.created.bind fun path =>
      (findNode (exec t op).2 path).map fun i => ((exec t op).2.nodes i).inode
  else none

def creations (t : Table) (ops : List Op) : ℕ :=
  (Runs.trace exec t ops).countP fun s => creates s.1 s.2.1

def givenInodes (t : Table) (ops : List Op) : List UInt64 :=
  (Runs.trace exec t ops).filterMap fun s => given s.1 s.2.1

theorem creations_le (t : Table) (ops : List Op) : creations t ops ≤ ops.length := by
  have hlen : (Runs.trace exec t ops).length = ops.length := by
    induction ops generalizing t with
    | nil => rfl
    | cons op ops ih => simp [ih]
  exact hlen ▸ List.countP_le_length

theorem InodeInv.store (h : InodeInv t) (hi : Slots.free view t.nodes = some i)
    (hn : t.nextInode.toNat + 1 < 2 ^ 64) (type : NodeType) (path : List UInt8) :
    InodeInv (t.store i type path) := by
  have hnext : (t.nextInode + 1).toNat = t.nextInode.toNat + 1 := by
    rw [UInt64.toNat_add]
    exact Nat.mod_eq_of_lt hn
  have hnew : (t.store i type path).nodes i = t.created i type path := Function.update_self ..
  have hother : ∀ j, j ≠ i → (t.store i type path).nodes j = t.nodes j := fun j hj =>
    Function.update_of_ne hj ..
  have hlt : ∀ j, j ≠ i → ((t.store i type path).nodes j).used →
      ((t.store i type path).nodes j).inode < t.nextInode := by
    intro j hj hu
    rw [hother j hj] at hu ⊢
    exact h.lt j hu
  constructor
  · intro j hu
    rw [UInt64.lt_iff_toNat_lt]
    change _ < (t.nextInode + 1).toNat
    rcases eq_or_ne j i with rfl | hj
    · rw [hnew, hnext]
      exact Nat.lt_succ_self _
    · have := hlt j hj hu
      rw [UInt64.lt_iff_toNat_lt] at this
      omega
  · intro j l hju hlu hjl
    by_cases hj : j = i <;> by_cases hl : l = i
    · rw [hj, hl]
    · subst hj
      have := hlt l hl hlu
      rw [← hjl, hnew] at this
      exact absurd this (UInt64.lt_irrefl _)
    · subst hl
      have := hlt j hj hju
      rw [hjl, hnew] at this
      exact absurd this (UInt64.lt_irrefl _)
    · rw [hother j hj] at hju hjl
      rw [hother l hl] at hlu hjl
      exact h.distinct j l hju hlu hjl

theorem InodeInv.release (h : InodeInv t) (i : Fin maxNodes) : InodeInv (t.release i) := by
  have hold : ∀ j, ((t.release i).nodes j).used → (t.release i).nodes j = t.nodes j := by
    intro j hj
    rcases eq_or_ne j i with rfl | hji
    · simp [Table.release] at hj
    · simp [Table.release, hji]
  constructor
  · intro j hj
    have he := hold j hj
    rw [he] at hj ⊢
    exact h.lt j hj
  · intro j l hj hl hjl
    have hje := hold j hj
    have hle := hold l hl
    rw [hje] at hj hjl
    rw [hle] at hl hjl
    exact h.distinct j l hj hl hjl

theorem InodeInv.modify (h : InodeInv t) (i : Fin maxNodes) {f : Node → Node}
    (hf : KeepsEntry f) : InodeInv (t.modify i f) := by
  have hold : ∀ j, ((t.modify i f).nodes j).used = (t.nodes j).used ∧
      ((t.modify i f).nodes j).inode = (t.nodes j).inode := by
    intro j
    rcases eq_or_ne j i with rfl | hji
    · simp [hf.used, hf.inode]
    · simp [hji]
  constructor
  · intro j hj
    rw [(hold j).1] at hj
    rw [(hold j).2]
    exact h.lt j hj
  · intro j l hj hl hjl
    rw [(hold j).1] at hj
    rw [(hold l).1] at hl
    rw [(hold j).2, (hold l).2] at hjl
    exact h.distinct j l hj hl hjl

theorem given_cases (h : Inv t) (hin : InodeInv t) (op : Op)
    (hn : creates t op = true → t.nextInode.toNat + 1 < 2 ^ 64) : InodeInv (exec t op).2 ∧
      ((creates t op = false ∧ given t op = none ∧ (exec t op).2.nextInode = t.nextInode) ∨
       (creates t op = true ∧ given t op = some t.nextInode ∧
        (exec t op).2.nextInode.toNat = t.nextInode.toNat + 1)) := by
  have hnot : creates t op = false → given t op = none := fun hc => by rw [given, hc]; rfl
  rcases exec_cases t op with he | ⟨type, path, i, ho, c, hi, he⟩ | ⟨path, i, ho, -, -, he⟩ |
    ⟨path, i, f, ho, hf, -, -, he⟩
  · have hc : creates t op = false := by simp [creates, he]
    exact ⟨he ▸ hin, .inl ⟨hc, hnot hc, by rw [he]⟩⟩
  · have hc : creates t op = true := by simp [creates, he, ho]
    have hself : (t.store i type path).nodes i = t.created i type path := Function.update_self ..
    refine ⟨he ▸ hin.store hi (hn hc) type path, .inr ⟨hc, ?_, ?_⟩⟩
    · have hfind : findNode (t.store i type path) path = some i := by
        rw [(h.store hi c).find_eq_some_iff, hself]
        exact ⟨rfl, name_created c.length_lt⟩
      rw [given, hc, if_pos rfl, ho, he, Option.bind_some, hfind, Option.map_some, hself]
      rfl
    · rw [he]
      exact (UInt64.toNat_add _ _).trans (Nat.mod_eq_of_lt (hn hc))
  · have hc : creates t op = false := by simp [creates, ho, Op.created]
    exact ⟨he ▸ hin.release i, .inl ⟨hc, hnot hc, by rw [he]; rfl⟩⟩
  · have hc : creates t op = false := by simp [creates, ho]
    exact ⟨he ▸ hin.modify i hf, .inl ⟨hc, hnot hc, by rw [he]; rfl⟩⟩

/-- In a run whose creations do not exhaust the counter the numbers given increase. -/
theorem givenInodes_spec (h : Inv t) (hin : InodeInv t) (ops : List Op)
    (hn : t.nextInode.toNat + creations t ops < 2 ^ 64) :
    InodeInv (Runs.run exec t ops) ∧ (givenInodes t ops).Pairwise (· < ·) ∧
      ∀ n ∈ givenInodes t ops, t.nextInode ≤ n := by
  induction ops generalizing t with
  | nil => exact ⟨hin, .nil, by simp [givenInodes]⟩
  | cons op ops ih =>
    have hcount : creations t (op :: ops) =
        creations (exec t op).2 ops + if creates t op then 1 else 0 := by
      simp [creations, List.countP_cons]
    have hgiven : givenInodes t (op :: ops) =
        (given t op).toList ++ givenInodes (exec t op).2 ops := by
      simp only [givenInodes, Runs.trace_cons, List.filterMap_cons]
      cases given t op <;> rfl
    rw [hcount] at hn
    rw [hgiven, Runs.run_cons]
    obtain ⟨hin', hcase⟩ := given_cases h hin op fun hc => by rw [hc, if_pos rfl] at hn; omega
    rcases hcase with ⟨hc, hg, hnext⟩ | ⟨hc, hg, hnext⟩
    · rw [hc] at hn
      obtain ⟨hrun, hpair, hle⟩ := ih (h.exec op) hin' (by rw [hnext]; simpa using hn)
      rw [hg]
      exact ⟨hrun, hpair, fun n hm => hnext ▸ hle n hm⟩
    · rw [hc, if_pos rfl] at hn
      obtain ⟨hrun, hpair, hle⟩ := ih (h.exec op) hin' (by omega)
      have hlt : ∀ n ∈ givenInodes (exec t op).2 ops, t.nextInode < n := by
        intro n hm
        have := hle n hm
        rw [UInt64.le_iff_toNat_le] at this
        rw [UInt64.lt_iff_toNat_lt]
        omega
      rw [hg]
      refine ⟨hrun, List.pairwise_cons.mpr ⟨hlt, hpair⟩, fun n hm => ?_⟩
      rcases List.mem_cons.mp hm with rfl | hm
      · exact UInt64.le_refl _
      · exact UInt64.le_of_lt (hlt n hm)

theorem inodeInv_initRoot (t : Table) : InodeInv (initRoot t) := by
  obtain ⟨i, -, -, -, -, -, hinode, honly, hnext⟩ := initRoot_eq t
  generalize initRoot t = s at *
  constructor
  · intro j hj
    rw [honly j hj, hinode, hnext]
    decide
  · intro j l hj hl _
    rw [honly j hj, honly l hl]

/-- What the node array represents, in the source's terms. -/
structure Represents (t : Table) : Prop where
  root : ∃! i, (t.nodes i).used ∧ (t.nodes i).name = rootPath
  root_dir : ∀ i, (t.nodes i).used → (t.nodes i).name = rootPath → (t.nodes i).type = .dir
  distinct : ∀ i j, (t.nodes i).used → (t.nodes j).used →
    (t.nodes i).name = (t.nodes j).name → i = j
  absolute : ∀ i, (t.nodes i).used → (t.nodes i).path.toList.headD 0 = slash
  terminated : ∀ i, (t.nodes i).used →
    0 ∈ (t.nodes i).path.toList ∧ stringLen (t.nodes i).path.toList ≤ 63
  parent : ∀ i, (t.nodes i).used → (t.nodes i).name ≠ rootPath →
    ∃ j, (t.nodes j).used ∧ (t.nodes j).type = .dir ∧
      (t.nodes j).name = parentOf (t.nodes i).path.toList
  size : ∀ i, (t.nodes i).used → (t.nodes i).size ≤ maxData
  inode_lt : ∀ i, (t.nodes i).used → (t.nodes i).inode < t.nextInode
  inode_distinct : ∀ i j, (t.nodes i).used → (t.nodes j).used →
    (t.nodes i).inode = (t.nodes j).inode → i = j

theorem Inv.represents (h : Inv t) (hin : InodeInv t) : Represents t where
  root := by
    obtain ⟨node, hn, -⟩ := h.root
    obtain ⟨i, hi, hname, -⟩ := (node_eq_some_iff h.distinct).mp hn
    exact ⟨i, ⟨hi, hname⟩, fun j hj => h.distinct j i hj.1 hi (hj.2.trans hname.symm)⟩
  root_dir i hi hname := by
    obtain ⟨node, hn, hdir⟩ := h.root
    obtain rfl := Option.some.inj ((hname ▸ h.node_name hi).symm.trans hn)
    exact hdir
  distinct := h.distinct
  absolute i hi := (headD_eq_iff slash_ne_zero _).mpr (h.node _ _ (h.node_name hi)).1
  terminated i hi := by
    obtain ⟨-, hterm, -⟩ := h.node _ _ (h.node_name hi)
    exact ⟨hterm, by rw [stringLen_eq]; exact Nat.le_of_lt_succ (Node.length_name_lt hterm)⟩
  parent i hi hroot := by
    obtain ⟨⟨r, hr⟩, hterm, -⟩ := h.node _ _ (h.node_name hi)
    obtain ⟨par, hpar, hdir⟩ := h.parent _ _ (h.node_name hi) hroot
    obtain ⟨j, hj, hname, rfl⟩ := (node_eq_some_iff h.distinct).mp hpar
    exact ⟨j, hj, hdir, hname.trans (parentOf_eq hr (Node.length_name_lt hterm)).symm⟩
  size i hi := (h.node _ _ (h.node_name hi)).2.2
  inode_lt := hin.lt
  inode_distinct := hin.distinct

/-- Every table reached from `wnu_vfs_init` represents a tree of nodes, and no inode number is
given twice in the run. The root and the nodes that `wnu_vfs_init` creates count as creations. -/
theorem run_represents (t₀ : Table) (ops : List Op)
    (hn : 1 + creations (initRoot t₀) (initOps ++ ops) < 2 ^ 64 - 1) :
    Represents (Runs.run exec (init t₀) ops) ∧
    (givenInodes (initRoot t₀) (initOps ++ ops)).Nodup ∧
    ∀ i, ((initRoot t₀).nodes i).used →
      ((initRoot t₀).nodes i).inode ∉ givenInodes (initRoot t₀) (initOps ++ ops) := by
  have h := inv_initRoot t₀
  have hin := inodeInv_initRoot t₀
  obtain ⟨-, -, -, -, -, -, -, -, hnext⟩ := initRoot_eq t₀
  obtain ⟨hrun, hpair, hle⟩ := givenInodes_spec h hin (initOps ++ ops) (by
    rw [hnext]
    change 2 + _ < _
    omega)
  have hsplit : Runs.run exec (init t₀) ops = Runs.run exec (initRoot t₀) (initOps ++ ops) :=
    (Runs.run_append exec _ _ _).symm
  refine ⟨?_, hpair.imp fun hlt => UInt64.ne_of_lt hlt, fun i hi hm => ?_⟩
  · rw [hsplit]
    exact (h.run _).represents hrun
  · have hlt := hin.lt i hi
    have := hle _ hm
    rw [UInt64.lt_iff_toNat_lt] at hlt
    rw [UInt64.le_iff_toNat_le] at this
    omega

/-- A directory is made, filled, emptied and removed, and its slots are taken again. -/
theorem run_represents_reuse :
    let ops : List Op :=
      [.createDir (ascii "/a"), .createFile (ascii "/a/b"), .delete (ascii "/a/b"),
        .delete (ascii "/a"), .createFile (ascii "//")]
    Represents (Runs.run exec (init staticTable) ops) ∧
    (givenInodes (initRoot staticTable) (initOps ++ ops)).Nodup ∧
    ∀ i, ((initRoot staticTable).nodes i).used →
      ((initRoot staticTable).nodes i).inode ∉
        givenInodes (initRoot staticTable) (initOps ++ ops) :=
  run_represents staticTable _
    (lt_of_le_of_lt (Nat.add_le_add_left (creations_le _ _) 1) (by decide))

end Wnu.Vfs
