import Mathlib.Data.List.Nodup
import Mathlib.Data.List.Basic
import Mathlib.Algebra.Group.Nat.Defs

/-! # Depth-first walks

A walk visits a node and then walks the nodes that a function lists under it. A rank that
falls along that function bounds the recursion. If a node is listed under one node at
most, and once, the walk visits every node below its start exactly once, each after the
one that it is listed under.
-/

namespace Wnu.Walks

variable {α β : Type*}

def collect (f : α → Option (List β)) : List α → Option (List β)
  | [] => some []
  | a :: as => (f a).bind fun l => (collect f as).map (l ++ ·)

/-- The nodes that a walk visits and their depths, or none if it goes deeper than its bound. -/
def preorder (children : α → List α) : ℕ → α → ℕ → Option (List (α × ℕ))
  | 0, _, _ => none
  | fuel + 1, a, depth =>
    (collect (fun b => preorder children fuel b (depth + 1)) (children a)).map ((a, depth) :: ·)

inductive Descends (children : α → List α) : ℕ → α → α → Prop
  | refl (a : α) : Descends children 0 a a
  | step {n : ℕ} {a b c : α} (hb : b ∈ children a) (h : Descends children n b c) :
      Descends children (n + 1) a c

theorem collect_congr {f g : α → Option (List β)} {as : List α} (h : ∀ a ∈ as, f a = g a) :
    collect f as = collect g as := by
  induction as with
  | nil => rfl
  | cons a as ih =>
    rw [collect, collect, h a List.mem_cons_self, ih fun b hb => h b (List.mem_cons_of_mem a hb)]

theorem collect_eq_some {f : α → Option (List β)} {g : α → List β} {as : List α}
    (h : ∀ a ∈ as, f a = some (g a)) : collect f as = some (as.flatMap g) := by
  induction as with
  | nil => rfl
  | cons a as ih =>
    rw [collect, h a List.mem_cons_self, ih fun b hb => h b (List.mem_cons_of_mem a hb)]
    rfl

theorem eq_some_of_collect {f : α → Option (List β)} {as : List α} {l : List β}
    (h : collect f as = some l) : ∀ a ∈ as, f a = some ((f a).getD []) := by
  induction as generalizing l with
  | nil => exact fun a ha => absurd ha List.not_mem_nil
  | cons a as ih =>
    rw [collect] at h
    obtain ⟨l₁, hl₁, h⟩ := Option.bind_eq_some_iff.mp h
    obtain ⟨l₂, hl₂, -⟩ := Option.map_eq_some_iff.mp h
    rw [List.forall_mem_cons, hl₁]
    exact ⟨rfl, ih hl₂⟩

section

variable {children : α → List α} {fuel depth : ℕ} {a b c : α} {l : List (α × ℕ)}

theorem preorder_succ_eq_some (h : preorder children (fuel + 1) a depth = some l) :
    ∃ g : α → List (α × ℕ), (∀ b ∈ children a, preorder children fuel b (depth + 1) = some (g b)) ∧
      l = (a, depth) :: (children a).flatMap g := by
  obtain ⟨l', hl', rfl⟩ := Option.map_eq_some_iff.mp h
  have hall := eq_some_of_collect hl'
  refine ⟨_, hall, ?_⟩
  rw [collect_eq_some hall] at hl'
  rw [Option.some.inj hl']

/-- A rank that falls from a node to those under it bounds the recursion. -/
theorem exists_preorder {rank : α → ℕ} (hrank : ∀ a, ∀ b ∈ children a, rank b < rank a)
    (h : rank a < fuel) (depth : ℕ) : ∃ l, preorder children fuel a depth = some l := by
  induction fuel generalizing a depth with
  | zero => exact absurd h (Nat.not_lt_zero _)
  | succ fuel ih =>
    have hsub : ∀ b ∈ children a, preorder children fuel b (depth + 1) =
        some ((preorder children fuel b (depth + 1)).getD []) := by
      intro b hb
      have hlt := hrank a b hb
      obtain ⟨l, hl⟩ := ih (a := b) (by omega) (depth + 1)
      rw [hl]
      rfl
    rw [preorder, collect_eq_some hsub]
    exact ⟨_, rfl⟩

theorem preorder_succ_of_eq_some (h : preorder children fuel a depth = some l) :
    preorder children (fuel + 1) a depth = some l := by
  induction fuel generalizing a depth l with
  | zero => cases h
  | succ fuel ih =>
    obtain ⟨g, hg, rfl⟩ := preorder_succ_eq_some h
    rw [preorder, collect_eq_some fun b hb => ih (hg b hb)]
    rfl

theorem preorder_of_le {fuel' : ℕ} (hle : fuel ≤ fuel')
    (h : preorder children fuel a depth = some l) : preorder children fuel' a depth = some l := by
  induction hle with
  | refl => exact h
  | step _ ih => exact preorder_succ_of_eq_some ih

theorem depth_lt_of_mem_preorder (h : preorder children fuel a depth = some l) {e : ℕ}
    (hmem : (c, e) ∈ l) : e < depth + fuel := by
  induction fuel generalizing a depth l with
  | zero => cases h
  | succ fuel ih =>
    obtain ⟨g, hg, rfl⟩ := preorder_succ_eq_some h
    rcases List.mem_cons.mp hmem with heq | hmem
    · cases heq
      omega
    · obtain ⟨b, hb, hmem⟩ := List.mem_flatMap.mp hmem
      have hlt := ih (hg b hb) hmem
      omega

/-- A walk visits the nodes below its start, at the depth that is the number of steps down. -/
theorem mem_preorder_iff (h : preorder children fuel a depth = some l) {e : ℕ} :
    (c, e) ∈ l ↔ ∃ n, e = depth + n ∧ Descends children n a c := by
  induction fuel generalizing a depth l with
  | zero => cases h
  | succ fuel ih =>
    obtain ⟨g, hg, rfl⟩ := preorder_succ_eq_some h
    rw [List.mem_cons, List.mem_flatMap]
    constructor
    · rintro (heq | ⟨b, hb, hmem⟩)
      · cases heq
        exact ⟨0, rfl, .refl _⟩
      · obtain ⟨n, rfl, hn⟩ := (ih (hg b hb)).mp hmem
        exact ⟨n + 1, by omega, .step hb hn⟩
    · rintro ⟨n, rfl, hn⟩
      cases hn with
      | refl => exact .inl rfl
      | @step n _ b _ hb hn =>
        refine .inr ⟨b, hb, (ih (hg b hb)).mpr ⟨n, by omega, hn⟩⟩

/-- A node is visited after the one that it is listed under. -/
theorem sublist_preorder (h : preorder children fuel a depth = some l) {e : ℕ}
    (hmem : (c, e) ∈ l) : (c, e) = (a, depth) ∨
      ∃ b e', e = e' + 1 ∧ c ∈ children b ∧ [(b, e'), (c, e)].Sublist l := by
  induction fuel generalizing a depth l with
  | zero => cases h
  | succ fuel ih =>
    obtain ⟨g, hg, rfl⟩ := preorder_succ_eq_some h
    rcases List.mem_cons.mp hmem with heq | hmem
    · exact .inl heq
    · right
      obtain ⟨b, hb, hmemb⟩ := List.mem_flatMap.mp hmem
      rcases ih (hg b hb) hmemb with heq | ⟨b', e', he, hc, hsub⟩
      · cases heq
        exact ⟨a, depth, rfl, hb, (List.singleton_sublist.mpr hmem).cons_cons _⟩
      · refine ⟨b', e', he, hc, (hsub.trans ?_).cons _⟩
        rw [List.flatMap_def]
        exact List.sublist_flatten_of_mem (List.mem_map_of_mem hb)

/-! ## Each node once -/

theorem Descends.exists_last {n : ℕ} (h : Descends children (n + 1) a c) :
    ∃ b, Descends children n a b ∧ c ∈ children b := by
  induction n generalizing a with
  | zero =>
    cases h with
    | step hb h =>
      cases h
      exact ⟨a, .refl a, hb⟩
  | succ n ih =>
    cases h with
    | step hb h =>
      obtain ⟨d, hd, hc⟩ := ih h
      exact ⟨d, .step hb hd, hc⟩

theorem Descends.trans_step {n : ℕ} (h : Descends children n a b) (hc : c ∈ children b) :
    Descends children (n + 1) a c := by
  induction h with
  | refl a => exact .step hc (.refl c)
  | step hb _ ih => exact .step hb (ih hc)

theorem Descends.comparable (hparent : ∀ a a' b, b ∈ children a → b ∈ children a' → a = a')
    {n m : ℕ} {b' : α} (h : Descends children n b c) (h' : Descends children m b' c) :
    (∃ k, Descends children k b b') ∨ ∃ k, Descends children k b' b := by
  induction n generalizing m c with
  | zero =>
    cases h
    exact .inr ⟨m, h'⟩
  | succ n ih =>
    cases m with
    | zero =>
      cases h'
      exact .inl ⟨n + 1, h⟩
    | succ m =>
      obtain ⟨d, hd, hc⟩ := h.exists_last
      obtain ⟨d', hd', hc'⟩ := h'.exists_last
      obtain rfl := hparent d d' c hc hc'
      exact ih hd hd'

theorem Descends.rank_le {rank : α → ℕ} (hrank : ∀ a, ∀ b ∈ children a, rank b < rank a) {n : ℕ}
    (h : Descends children n a c) : rank c ≤ rank a := by
  induction h with
  | refl a => exact Nat.le_refl _
  | step hb _ ih => exact Nat.le_trans ih (Nat.le_of_lt (hrank _ _ hb))

theorem eq_of_descends {rank : α → ℕ} (hrank : ∀ a, ∀ b ∈ children a, rank b < rank a)
    (hparent : ∀ a a' b, b ∈ children a → b ∈ children a' → a = a') {n : ℕ}
    (hb : b ∈ children a) (hc : c ∈ children a) (h : Descends children n b c) : b = c := by
  cases n with
  | zero =>
    cases h
    rfl
  | succ n =>
    obtain ⟨d, hd, hcd⟩ := h.exists_last
    obtain rfl := hparent a d c hc hcd
    exact absurd (hd.rank_le hrank) (Nat.not_le_of_lt (hrank _ _ hb))

/-- If a node is listed under one node at most, and once, a walk visits each node once. -/
theorem nodup_preorder {rank : α → ℕ} (hrank : ∀ a, ∀ b ∈ children a, rank b < rank a)
    (hparent : ∀ a a' b, b ∈ children a → b ∈ children a' → a = a')
    (hnodup : ∀ a, (children a).Nodup) (h : preorder children fuel a depth = some l) :
    (l.map Prod.fst).Nodup := by
  induction fuel generalizing a depth l with
  | zero => cases h
  | succ fuel ih =>
    obtain ⟨g, hg, rfl⟩ := preorder_succ_eq_some h
    have hbelow : ∀ b ∈ children a, ∀ c ∈ (g b).map Prod.fst, ∃ n, Descends children n b c := by
      intro b hb c hc
      obtain ⟨⟨c, e⟩, hce, rfl⟩ := List.mem_map.mp hc
      obtain ⟨n, -, hn⟩ := (mem_preorder_iff (hg b hb)).mp hce
      exact ⟨n, hn⟩
    rw [List.map_cons, List.map_flatMap, List.nodup_cons, List.nodup_flatMap]
    refine ⟨fun hmem => ?_, fun b hb => ih (hg b hb), ?_⟩
    · obtain ⟨b, hb, hmem⟩ := List.mem_flatMap.mp hmem
      obtain ⟨n, hn⟩ := hbelow b hb a hmem
      exact absurd (hn.rank_le hrank) (Nat.not_le_of_lt (hrank a b hb))
    · refine (hnodup a).pairwise_of_forall_ne fun b hb b' hb' hne => ?_
      intro c hc hc'
      obtain ⟨n, hn⟩ := hbelow b hb c hc
      obtain ⟨m, hm⟩ := hbelow b' hb' c hc'
      rcases hn.comparable hparent hm with ⟨k, hk⟩ | ⟨k, hk⟩
      · exact hne (eq_of_descends hrank hparent hb hb' hk)
      · exact hne (eq_of_descends hrank hparent hb' hb hk).symm

end

end Wnu.Walks
