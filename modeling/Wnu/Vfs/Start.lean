import Wnu.Vfs.Invariant

/-! # Nodes that calls can add

A run of calls has nodes only where it started with one or has created one, and each call
adds at most one. The file system that is initialized has few nodes, whatever its memory
held before.
-/

namespace Wnu.Vfs

open Text Memory Runs

variable {t : Table} {p : List UInt8}

def Op.target (op : Op) : Option (List UInt8) := op.created.map text

theorem adds_exec (h : Inv t) (op : Op) :
    (∀ p, (exec t op).2.node p ≠ none → t.node p ≠ none ∨ op.target = some p) ∧
      (Slots.usedSlots view (exec t op).2.nodes).card ≤
        (Slots.usedSlots view t.nodes).card + 1 := by
  rcases exec_cases t op with he | ⟨type, path, i, hop, c, hi, he⟩ | ⟨path, i, -, c, hi, he⟩ |
    ⟨path, i, f, -, hf, hi, -, he⟩ <;> rw [he]
  · exact ⟨fun p hp => .inl hp, Nat.le_succ _⟩
  · constructor
    · intro p hp
      rw [node_store h.distinct hi c] at hp
      split at hp
      · rename_i hpath
        exact .inr (by rw [Op.target, hop, Option.map_some, hpath])
      · exact .inl hp
    · exact (Slots.card_usedSlots_store (Slots.used_eq_false_of_free hi) rfl).le
  · obtain ⟨hu, -⟩ := h.find_eq_some_iff.mp hi
    constructor
    · intro p hp
      rw [node_release h.distinct hu] at hp
      split at hp
      · exact absurd rfl hp
      · exact .inl hp
    · apply Nat.le_succ_of_le
      apply Finset.card_le_card
      intro j hj
      rw [Slots.mem_usedSlots] at hj ⊢
      by_cases hji : j = i
      · rw [hji]
        exact hu
      · rwa [Table.release, modify_nodes, Function.update_of_ne hji] at hj
  · obtain ⟨hu, hname⟩ := h.find_eq_some_iff.mp hi
    constructor
    · intro p hp
      rw [node_modify h.distinct hu hf] at hp
      split at hp
      · rename_i hpi
        rw [hpi, h.node_name hu]
        exact .inl (Option.some_ne_none _)
      · exact .inl hp
    · rw [modify_nodes, Slots.usedSlots_replace hu ((hf.used _).trans hu)]
      exact Nat.le_succ _

theorem adds_run (h : Inv t) (ops : List Op) :
    (∀ p, (run exec t ops).node p ≠ none → t.node p ≠ none ∨ some p ∈ ops.map Op.target) ∧
      (Slots.usedSlots view (run exec t ops).nodes).card ≤
        (Slots.usedSlots view t.nodes).card + ops.length := by
  induction ops generalizing t with
  | nil => exact ⟨fun p hp => .inl hp, Nat.le_refl _⟩
  | cons op ops ih =>
    obtain ⟨hnode, hcard⟩ := adds_exec h op
    obtain ⟨hnode', hcard'⟩ := ih (h.exec op)
    rw [run_cons, List.map_cons, List.length_cons]
    constructor
    · intro p hp
      rcases hnode' p hp with hp | hmem
      · rcases hnode p hp with hp | hop
        · exact .inl hp
        · exact .inr (List.mem_cons.mpr (.inl hop.symm))
      · exact .inr (List.mem_cons_of_mem _ hmem)
    · omega

/-- The root, and what `wnu_vfs_init` creates under it. -/
def initPaths : List (List UInt8) :=
  [rootPath, ascii "/bin", ascii "/etc", ascii "/home", ascii "/tmp", ascii "/etc/os-release",
    ascii "/hello.txt"]

theorem node_init {t₀ : Table} (hp : p ∉ initPaths) : (init t₀).node p = none := by
  by_contra hne
  rcases (adds_run (inv_initRoot t₀) initOps).1 p hne with hroot | hop
  · obtain ⟨i, hused, hname, -, -, -, -, honly, -⟩ := initRoot_eq t₀
    obtain ⟨node, hnode⟩ := Option.ne_none_iff_exists'.mp hroot
    obtain ⟨j, hj, hjp, -⟩ := (node_eq_some_iff (inv_initRoot t₀).distinct).mp hnode
    rw [honly j hj] at hjp
    exact hp (hjp ▸ hname ▸ List.mem_cons_self)
  · have htargets : initOps.map Op.target = [some (ascii "/bin"), some (ascii "/etc"),
        some (ascii "/home"), some (ascii "/tmp"), some (ascii "/etc/os-release"), none,
        some (ascii "/hello.txt"), none] := rfl
    rw [htargets] at hop
    simp only [List.mem_cons, List.not_mem_nil, or_false, Option.some.injEq, reduceCtorEq,
      false_or] at hop
    apply hp
    simp only [initPaths, List.mem_cons, List.not_mem_nil, or_false]
    rcases hop with h | h | h | h | h | h <;> simp [h]

theorem card_init_le (t₀ : Table) : (Slots.usedSlots view (init t₀).nodes).card ≤ 9 := by
  obtain ⟨i, -, -, -, -, -, -, honly, -⟩ := initRoot_eq t₀
  have hroot : (Slots.usedSlots view (initRoot t₀).nodes).card ≤ 1 := by
    rw [Finset.card_le_one]
    intro j hj l hl
    rw [Slots.mem_usedSlots, view_used] at hj hl
    exact (honly j hj).trans (honly l hl).symm
  have hrun := (adds_run (inv_initRoot t₀) initOps).2
  have hlength : initOps.length = 8 := rfl
  exact hrun.trans (by omega)

end Wnu.Vfs
