import Wnu.Vfs.Tree
import Wnu.Walks.Preorder

/-! # The order of the tree

Read as a walk over the slots of the table, `tree_walk` goes down by one component at a
time. Names are unique and every component is a byte after a slash, so it visits each
node below its start once, and the array for a path bounds how deep it goes.
-/

namespace Wnu.Vfs

open Text Components Walks

/-- The call of `tree_walk` for a path, if it finds a node, with its slot and the depth, and then
the calls that it makes. -/
def callsOf (t : Table) (calls : List UInt8 → Option (List (Fin maxNodes × ℕ)))
    (path : List UInt8) (depth : ℕ) : Option (List (Fin maxNodes × ℕ)) :=
  match findNode t path with
  | none => some []
  | some n =>
    if (t.nodes n).type ≠ .dir then some [(n, depth)]
    else (collect (fun i => calls (t.nodes i).path.toList) (listed t path)).map ((n, depth) :: ·)

/-- The calls of `tree_walk`, in their order, or none if they go deeper than the bound. -/
def treeCalls (t : Table) : ℕ → List UInt8 → ℕ → Option (List (Fin maxNodes × ℕ))
  | 0, _, _ => none
  | fuel + 1, path, depth => callsOf t (treeCalls t fuel · (depth + 1)) path depth

/-- The line of a node in a tree: two blanks for each level, the last component of its path and, for
a directory, a slash. The root is the slash. -/
def nodeLine (depth : ℕ) (p : List UInt8) (type : NodeType) : List UInt8 :=
  List.replicate (2 * depth) ' '.toUInt8 ++
    (if p = rootPath then [slash] else base slash p ++ if type = .dir then [slash] else []) ++
    ['\n'.toUInt8]

def visitLine (t : Table) (visit : Fin maxNodes × ℕ) : List UInt8 :=
  nodeLine visit.2 (t.nodes visit.1).name (t.nodes visit.1).type

def appendComponent (p c : List UInt8) : List UInt8 :=
  if p = rootPath then slash :: c else p ++ slash :: c

inductive Appended : ℕ → List UInt8 → List UInt8 → Prop
  | refl (p : List UInt8) : Appended 0 p p
  | snoc {n : ℕ} {p q c : List UInt8} (h : Appended n p q) (hne : c ≠ []) (hfree : slash ∉ c) :
      Appended (n + 1) p (appendComponent q c)

def childSlots (t : Table) (i : Fin maxNodes) : List (Fin maxNodes) :=
  if (t.nodes i).used ∧ (t.nodes i).type = .dir then listed t (t.nodes i).path.toList else []

variable {t : Table} {i j : Fin maxNodes} {path path' p q c : List UInt8} {n fuel depth : ℕ}
  {L : List (Fin maxNodes × ℕ)}

/-! ## Components -/

theorem parent_appendComponent (hq : q ≠ []) (hfree : slash ∉ c) :
    Components.parent slash (appendComponent q c) = q := by
  rw [appendComponent]
  split
  · rename_i hroot
    rw [parent_cons hfree, hroot]
  · exact parent_append hfree hq

theorem appendComponent_ne_root (q : List UInt8) (hne : c ≠ []) :
    appendComponent q c ≠ rootPath := by
  have hpos := List.length_pos_of_ne_nil hne
  intro he
  have hlen := congrArg List.length he
  rw [appendComponent] at hlen
  split at hlen
  · rw [List.length_cons, List.length_singleton] at hlen
    omega
  · rw [List.length_append, List.length_cons, List.length_singleton] at hlen
    omega

theorem base_appendComponent (q : List UInt8) (hfree : slash ∉ c) :
    base slash (appendComponent q c) = c := by
  rw [appendComponent]
  split
  · exact base_append (d := []) hfree
  · exact base_append hfree

theorem slash_mem_appendComponent (q c : List UInt8) : slash ∈ appendComponent q c := by
  rw [appendComponent]
  split <;> simp

theorem Appended.ne_nil (h : Appended n p q) (hp : p ≠ []) : q ≠ [] := by
  cases h with
  | refl => exact hp
  | snoc h hne hfree =>
    rw [appendComponent]
    split <;> simp

theorem isDirectChild_iff_appendComponent {child : List UInt8} :
    isDirectChild path child = true ↔
      ∃ c, c ≠ [] ∧ slash ∉ c ∧ text child = appendComponent (text path) c := by
  unfold appendComponent
  by_cases hroot : text path = rootPath
  · simp only [isDirectChild_root hroot, if_pos hroot]
  · simp only [isDirectChild_of_ne_root hroot, if_neg hroot]

theorem listed_congr (h : text path = text path') : listed t path = listed t path' := by
  apply List.filter_congr
  intro i _
  have hchild : isDirectChild path (t.nodes i).path.toList =
      isDirectChild path' (t.nodes i).path.toList := by
    rw [Bool.eq_iff_iff, isDirectChild_iff_appendComponent, isDirectChild_iff_appendComponent, h]
  rw [hchild]

theorem mem_childSlots_iff : j ∈ childSlots t i ↔
    (t.nodes i).used ∧ (t.nodes i).type = .dir ∧ (t.nodes j).used ∧
      ∃ c, c ≠ [] ∧ slash ∉ c ∧ (t.nodes j).name = appendComponent (t.nodes i).name c := by
  rw [childSlots]
  split
  · rename_i hi
    simp only [listed, List.mem_filter, List.mem_finRange, true_and, Bool.and_eq_true,
      isDirectChild_iff_appendComponent, hi.1, hi.2]
    rfl
  · rename_i hi
    exact iff_of_false List.not_mem_nil fun h => hi ⟨h.1, h.2.1⟩

/-! ## The walk over the slots -/

theorem Inv.name_ne_nil (h : Inv t) (hi : (t.nodes i).used) : (t.nodes i).name ≠ [] := by
  obtain ⟨r, hr⟩ := (h.node _ _ (h.node_name hi)).1
  rw [hr]
  exact List.cons_ne_nil _ _

theorem Inv.length_name_lt (h : Inv t) (hi : (t.nodes i).used) :
    (t.nodes i).name.length < maxName :=
  length_lt_of_node h (h.node_name hi)

def rank (t : Table) (i : Fin maxNodes) : ℕ := (63 - (t.nodes i).name.length) / 2

theorem Inv.rank_lt (h : Inv t) (hj : j ∈ childSlots t i) : rank t j < rank t i := by
  obtain ⟨hi, -, hj, c, hne, -, hname⟩ := mem_childSlots_iff.mp hj
  have hlt := h.length_name_lt hj
  have hpos := List.length_pos_of_ne_nil (h.name_ne_nil hi)
  have hposc := List.length_pos_of_ne_nil hne
  have hmax : maxName = 64 := rfl
  rw [rank, rank]
  rw [hname, appendComponent] at hlt ⊢
  split at hlt
  · rename_i hroot
    rw [if_pos hroot, hroot, List.length_cons, List.length_singleton]
    omega
  · rename_i hroot
    rw [List.length_append, List.length_cons] at hlt
    rw [if_neg hroot, List.length_append, List.length_cons]
    omega

theorem Inv.eq_of_mem_childSlots (h : Inv t) (i i' j : Fin maxNodes) (hj : j ∈ childSlots t i)
    (hj' : j ∈ childSlots t i') : i = i' := by
  obtain ⟨hi, -, -, c, -, hfree, hname⟩ := mem_childSlots_iff.mp hj
  obtain ⟨hi', -, -, c', -, hfree', hname'⟩ := mem_childSlots_iff.mp hj'
  apply h.distinct i i' hi hi'
  have hparent := parent_appendComponent (h.name_ne_nil hi) hfree
  rw [← hname, hname', parent_appendComponent (h.name_ne_nil hi') hfree'] at hparent
  exact hparent.symm

theorem nodup_childSlots (i : Fin maxNodes) : (childSlots t i).Nodup := by
  rw [childSlots]
  split
  · exact (List.nodup_finRange maxNodes).filter _
  · exact List.nodup_nil

theorem Inv.descends_iff (h : Inv t) (hi : (t.nodes i).used) :
    Descends (childSlots t) n i j ↔
      (t.nodes j).used ∧ Appended n (t.nodes i).name (t.nodes j).name := by
  induction n generalizing j with
  | zero =>
    constructor
    · intro hd
      cases hd
      exact ⟨hi, .refl _⟩
    · rintro ⟨hj, ha⟩
      generalize hname : (t.nodes j).name = q at ha
      cases ha
      obtain rfl := h.distinct j i hj hi hname
      exact .refl j
  | succ n ih =>
    constructor
    · intro hd
      obtain ⟨k, hk, hj⟩ := hd.exists_last
      obtain ⟨-, -, hu, c, hne, hfree, hname⟩ := mem_childSlots_iff.mp hj
      rw [hname]
      exact ⟨hu, .snoc (ih.mp hk).2 hne hfree⟩
    · rintro ⟨hj, ha⟩
      generalize hname : (t.nodes j).name = q at ha
      cases ha with
      | @snoc _ _ q c ha hne hfree =>
        -- the path without its last component is the directory above it
        have hq := ha.ne_nil (h.name_ne_nil hi)
        obtain ⟨par, hpar, hdir⟩ := h.parent _ _ (h.node_name hj) (by
          rw [hname]
          exact appendComponent_ne_root q hne)
        rw [hname, parent_appendComponent hq hfree] at hpar
        obtain ⟨k, hk, rfl, rfl⟩ := (node_eq_some_iff h.distinct).mp hpar
        exact (ih.mpr ⟨hk, ha⟩).trans_step
          (mem_childSlots_iff.mpr ⟨hk, hdir, hj, c, hne, hfree, hname⟩)

/-! ## The calls of `tree_walk` -/

theorem Inv.find_name (h : Inv t) (hi : (t.nodes i).used) :
    findNode t (t.nodes i).path.toList = some i :=
  h.find_eq_some_iff.mpr ⟨hi, rfl⟩

theorem Inv.used_of_mem_listed (hj : j ∈ listed t path) : (t.nodes j).used := by
  simp only [listed, List.mem_filter, Bool.and_eq_true] at hj
  exact hj.2.1

/-- The calls of `tree_walk` are a walk over the slots. -/
theorem Inv.treeCalls_eq (h : Inv t) (hi : findNode t path = some i) :
    treeCalls t fuel path depth = preorder (childSlots t) fuel i depth := by
  induction fuel generalizing path i depth with
  | zero => rfl
  | succ fuel ih =>
    obtain ⟨hu, hname⟩ := h.find_eq_some_iff.mp hi
    unfold treeCalls callsOf
    rw [hi, preorder, childSlots]
    simp only
    by_cases hdir : (t.nodes i).type = .dir
    · rw [if_neg (not_not.mpr hdir), if_pos ⟨hu, hdir⟩, listed_congr hname.symm]
      refine congrArg (Option.map ((i, depth) :: ·)) (collect_congr fun j hj => ?_)
      exact ih (h.find_name (used_of_mem_listed hj))
    · rw [if_pos hdir, if_neg fun hc => hdir hc.2]
      rfl

theorem treeIndent_eq (depth : ℕ) :
    treeIndent depth = List.replicate (2 * depth) ' '.toUInt8 := by
  rw [Nat.mul_comm, ← List.flatten_replicate_replicate]
  rfl

theorem Inv.treeLine_eq (h : Inv t) (hi : (t.nodes i).used) (hname : (t.nodes i).name = text path)
    (depth : ℕ) : treeIndent depth ++ treeLine path (t.nodes i) = visitLine t (i, depth) := by
  obtain ⟨r, hr⟩ := (h.node _ _ (h.node_name hi)).1
  have hroot : stringEqual path rootPath = decide ((t.nodes i).name = rootPath) := by
    rw [hname]
    exact stringEqual_eq path rootPath
  have hline : ascii "\n" = ['\n'.toUInt8] := rfl
  have hslash : ascii "/" = [slash] := rfl
  rw [treeIndent_eq, treeLine, visitLine, nodeLine, hroot, hline, hslash, List.append_assoc]
  by_cases heq : (t.nodes i).name = rootPath
  · simp [heq]
  · have hbase : text (pathBasename (t.nodes i).path.toList) = base slash (t.nodes i).name :=
      text_pathBasename heq (by rw [← Node.name, hr]; exact List.mem_cons_self)
    simp [heq, hbase]

/-- A walk that stays within its bound prints a line for each call. -/
theorem Inv.treeWalk_eq (h : Inv t) (hi : findNode t path = some i)
    (hL : preorder (childSlots t) fuel i depth = some L) :
    treeWalk t fuel path depth = L.flatMap (visitLine t) := by
  induction fuel generalizing path i depth L with
  | zero => cases hL
  | succ fuel ih =>
    obtain ⟨hu, hname⟩ := h.find_eq_some_iff.mp hi
    obtain ⟨g, hg, rfl⟩ := preorder_succ_eq_some hL
    unfold treeWalk treeNode
    rw [hi, List.flatMap_cons, List.flatMap_assoc]
    simp only
    rw [h.treeLine_eq hu hname]
    apply congrArg
    rw [childSlots] at hg ⊢
    by_cases hdir : (t.nodes i).type = .dir
    · rw [if_pos ⟨hu, hdir⟩, listed_congr hname] at hg
      rw [if_neg (not_not.mpr hdir), if_pos ⟨hu, hdir⟩, listed_congr hname]
      apply List.flatMap_congr
      intro j hj
      exact ih (h.find_name (used_of_mem_listed hj)) (hg j hj)
    · rw [if_pos hdir, if_neg fun hc => hdir hc.2]
      rfl

/-- From every path that exists, `tree_walk` returns without going deeper than 31 calls below the
first. It prints the line of each node that the path leads to by appending components once, after
that of its parent and indented by the number of components, and nothing else. -/
theorem tree_eq_visits (h : Reachable t) (hex : exists' t path = true) :
    ∃ L, treeCalls t 32 path 0 = some L ∧
      tree t path = L.flatMap (visitLine t) ∧
      (L.map Prod.fst).Nodup ∧
      (∀ j d, (j, d) ∈ L ↔ (t.nodes j).used ∧ Appended d (text path) (t.nodes j).name) ∧
      (∀ j d, (j, d) ∈ L → d ≤ 31) ∧
      ∀ j d, (j, d + 1) ∈ L → ∃ i, Appended 1 (t.nodes i).name (t.nodes j).name ∧
        [(i, d), (j, d + 1)].Sublist L := by
  have hinv := h.inv
  obtain ⟨i, hi⟩ := Option.isSome_iff_exists.mp hex
  obtain ⟨hu, hname⟩ := hinv.find_eq_some_iff.mp hi
  have hrank : ∀ i, ∀ j ∈ childSlots t i, rank t j < rank t i := fun i j hj => hinv.rank_lt hj
  have hbound : rank t i < 32 := by
    have hpos := List.length_pos_of_ne_nil (hinv.name_ne_nil hu)
    rw [rank]
    omega
  obtain ⟨L, hL⟩ := exists_preorder hrank hbound 0
  refine ⟨L, (hinv.treeCalls_eq hi).trans hL, ?_, ?_, fun j d => ?_, fun j d hmem => ?_,
    fun j d hmem => ?_⟩
  · have hvalid : validPath path = true := by
      rw [validPath_iff, ← hname]
      exact ⟨(hinv.node _ _ (hinv.node_name hu)).1, hinv.length_name_lt hu⟩
    have hwalk := hinv.treeWalk_eq hi (preorder_of_le (show 32 ≤ maxName + 1 by decide) hL)
    unfold tree
    simp only [hvalid, hex, Bool.not_true, Bool.false_eq_true, if_false]
    exact hwalk
  · exact nodup_preorder hrank hinv.eq_of_mem_childSlots nodup_childSlots hL
  · rw [mem_preorder_iff hL, ← hname, ← hinv.descends_iff hu]
    constructor
    · rintro ⟨n, rfl, hn⟩
      rwa [Nat.zero_add]
    · intro hn
      exact ⟨d, (Nat.zero_add d).symm, hn⟩
  · have hlt := depth_lt_of_mem_preorder hL hmem
    omega
  · rcases sublist_preorder hL hmem with heq | ⟨k, e, he, hk, hsub⟩
    · cases heq
    · obtain rfl := Nat.succ.inj he
      obtain ⟨-, -, -, c, hne, hfree, hchild⟩ := mem_childSlots_iff.mp hk
      refine ⟨k, ?_, hsub⟩
      rw [hchild]
      exact .snoc (.refl _) hne hfree

theorem tree_eq_visits_etc :
    exists' (init staticTable) (ascii "/etc") = true ∧
      ∃ L, treeCalls (init staticTable) 32 (ascii "/etc") 0 = some L ∧
        tree (init staticTable) (ascii "/etc") = L.flatMap (visitLine (init staticTable)) := by
  have hex : exists' (init staticTable) (ascii "/etc") = true := by decide +kernel
  obtain ⟨L, hcalls, htree, -⟩ := tree_eq_visits (reachable_init staticTable) hex
  exact ⟨hex, L, hcalls, htree⟩

end Wnu.Vfs
