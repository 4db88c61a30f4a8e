import Mathlib.Algebra.Group.Nat.Defs
import Mathlib.Order.CompletePartialOrder
import Mathlib.Order.Interval.Set.Disjoint
import Wnu.Memory.Rounding
import Wnu.Runs.Machine

/-! # The kernel heap

The heap is one byte array and an offset that only moves up: an allocation
starts at the offset rounded up to sixteen, and freeing does nothing. The bound
is checked on a sum of machine words, so it speaks about the integers exactly as
long as that sum does not wrap around.
-/

namespace Wnu.Heap

open Runs

/-- `HEAP_SIZE` -/
abbrev heapSize : UInt64 := 1024 * 1024

/-- `wnu_heap_init`, as the value it gives `heap_offset`. -/
def heapInit : UInt64 := 0

/-- `align_up` -/
def alignUp (value align : UInt64) : UInt64 := (value + align - 1) &&& ~~~(align - 1)

/-- `wnu_malloc`: the index into `heap` of the result, and the new `heap_offset`. -/
def malloc (heapOffset size : UInt64) : Option UInt64 × UInt64 :=
  if size = 0 then (none, heapOffset)
  else
    let heapOffset := alignUp heapOffset 16
    if heapOffset + size > heapSize then (none, heapOffset)
    else (some heapOffset, heapOffset + size)

/-- A call into the allocator. The argument of `wnu_free` is not looked at. -/
inductive Op
  | malloc (size : UInt64)
  | free (ptr : Option UInt64)

/-- One call, on `heap_offset`. -/
def exec (heapOffset : UInt64) : Op → Option UInt64 × UInt64
  | .malloc size => malloc heapOffset size
  | .free _ => (none, heapOffset)

/-! ## Blocks -/

structure Block where
  start : ℕ
  size : ℕ
  deriving DecidableEq

def Block.bytes (b : Block) : Set ℕ := Set.Ico b.start (b.start + b.size)

def Block.Placed (b : Block) : Prop := 16 ∣ b.start ∧ b.start + b.size ≤ heapSize.toNat

def Op.block : Op → Option UInt64 → Option Block
  | .malloc size, some o => some ⟨o.toNat, size.toNat⟩
  | _, _ => none

def granted (heapOffset : UInt64) (ops : List Op) : List Block :=
  (trace exec heapOffset ops).filterMap fun e => e.2.1.block e.2.2

/-- The values of `heap_offset` before each call of a run and at its end. -/
def offsets (heapOffset : UInt64) : List Op → List UInt64
  | [] => [heapOffset]
  | op :: ops => heapOffset :: offsets (exec heapOffset op).2 ops

/-- The heap is handed out soundly by a run: blocks are aligned, inside the heap
and apart from each other, and `heap_offset` stays in the heap and never goes back. -/
structure Sound (heapOffset : UInt64) (ops : List Op) : Prop where
  placed : ∀ b ∈ granted heapOffset ops, b.Placed
  disjoint : (granted heapOffset ops).Pairwise fun a b => Disjoint a.bytes b.bytes
  bounded : ∀ o ∈ offsets heapOffset ops, o.toNat ≤ heapSize.toNat
  monotone : (offsets heapOffset ops).Pairwise fun o o' => o.toNat ≤ o'.toNat

/-- The sum that `wnu_malloc` compares with the size of the heap does not wrap around. -/
def NoWrap (heapOffset : UInt64) : Op → Prop
  | .malloc size => size ≠ 0 → (alignUp heapOffset 16).toNat + size.toNat < 2 ^ 64
  | .free _ => True

/-! ## One call -/

theorem toNat_heapSize : heapSize.toNat = 2 ^ 20 := by decide

theorem and_not_fifteen (x : UInt64) : (x &&& ~~~15).toNat = x.toNat / 16 * 16 := by
  have hmask : UInt64.size - 1 - (15 : UInt64).toNat = 2 ^ 64 - 2 ^ 4 := rfl
  rw [UInt64.toNat_and, UInt64.toNat_not, hmask]
  exact Memory.and_two_pow_sub_two_pow (by decide) x.toNat_lt

theorem toNat_alignUp {v : UInt64} (h : v.toNat ≤ heapSize.toNat) :
    (alignUp v 16).toNat = (v.toNat + 15) / 16 * 16 := by
  have hv : (v + 16 - 1).toNat = v.toNat + 15 := by
    rw [toNat_heapSize] at h
    rw [UInt64.toNat_sub, UInt64.toNat_add]
    simp
    omega
  have h15 : (16 - 1 : UInt64) = 15 := by decide
  rw [alignUp, h15, and_not_fifteen, hv]

theorem alignUp_spec {v : UInt64} (h : v.toNat ≤ heapSize.toNat) :
    16 ∣ (alignUp v 16).toNat ∧ v.toNat ≤ (alignUp v 16).toNat ∧
      (alignUp v 16).toNat ≤ heapSize.toNat := by
  rw [toNat_alignUp h]
  rw [toNat_heapSize] at h ⊢
  omega

/-- What a call can do when its sum does not wrap around: it hands out nothing and
leaves the offset in the heap, or it hands out the block between the rounded offset
and the new offset. -/
theorem exec_cases {o : UInt64} {op : Op} (h : o.toNat ≤ heapSize.toNat) (hn : NoWrap o op) :
    (op.block (exec o op).1 = none ∧
      o.toNat ≤ (exec o op).2.toNat ∧ (exec o op).2.toNat ≤ heapSize.toNat) ∨
    ∃ b, op.block (exec o op).1 = some b ∧ b.Placed ∧
      o.toNat ≤ b.start ∧ b.start + b.size = (exec o op).2.toNat := by
  cases op with
  | free ptr => exact .inl ⟨rfl, Nat.le_refl _, h⟩
  | malloc size =>
    obtain ⟨hd, hle, hin⟩ := alignUp_spec h
    rcases eq_or_ne size 0 with rfl | hs
    · exact .inl ⟨rfl, Nat.le_refl _, h⟩
    · have hsum : (alignUp o 16 + size).toNat = (alignUp o 16).toNat + size.toNat := by
        rw [UInt64.toNat_add, Nat.mod_eq_of_lt (hn hs)]
      by_cases hb : alignUp o 16 + size > heapSize
      · have he : exec o (.malloc size) = (none, alignUp o 16) := by
          simp only [exec, malloc, hs, if_false, hb, if_true]
        rw [he]
        exact .inl ⟨rfl, hle, hin⟩
      · have he : exec o (.malloc size) = (some (alignUp o 16), alignUp o 16 + size) := by
          simp only [exec, malloc, hs, if_false, hb]
        rw [gt_iff_lt, UInt64.lt_iff_toNat_lt, hsum, Nat.not_lt] at hb
        rw [he]
        exact .inr ⟨_, rfl, ⟨hd, hb⟩, hle, hsum.symm⟩

theorem exec_of_wrap {o : UInt64} {op : Op} (h : o.toNat ≤ heapSize.toNat) (hn : ¬ NoWrap o op) :
    ∃ b, op.block (exec o op).1 = some b ∧ ¬ b.Placed := by
  cases op with
  | free ptr => exact absurd trivial hn
  | malloc size =>
    obtain ⟨hs, hw⟩ := Classical.not_imp.mp hn
    obtain ⟨-, -, hin⟩ := alignUp_spec h
    have hlt := size.toNat_lt
    rw [toNat_heapSize] at hin
    have hb : ¬ alignUp o 16 + size > heapSize := by
      rw [gt_iff_lt, UInt64.lt_iff_toNat_lt, UInt64.toNat_add, toNat_heapSize]
      omega
    refine ⟨⟨(alignUp o 16).toNat, size.toNat⟩, ?_, fun hp => ?_⟩
    · simp only [exec, malloc, hs, if_false, hb, Op.block]
    · have := hp.2
      rw [toNat_heapSize] at this
      simp only at this
      omega

/-! ## Runs -/

theorem granted_cons (o : UInt64) (op : Op) (ops : List Op) :
    granted o (op :: ops) =
      (op.block (exec o op).1).toList ++ granted (exec o op).2 ops := by
  cases h : op.block (exec o op).1 <;> simp [granted, h]

theorem head_mem_offsets (o : UInt64) (ops : List Op) : o ∈ offsets o ops := by
  cases ops <;> simp [offsets]

/-- From an offset in the heap, a run without wrap-around only hands out blocks
beyond the offset, and only moves the offset up. -/
theorem beyond_of_along {o : UInt64} {ops : List Op} (h : o.toNat ≤ heapSize.toNat)
    (hn : Along exec NoWrap o ops) :
    (∀ b ∈ granted o ops, o.toNat ≤ b.start) ∧ ∀ o' ∈ offsets o ops, o.toNat ≤ o'.toNat := by
  induction ops generalizing o with
  | nil => simp [granted, offsets]
  | cons op ops ih =>
    obtain ⟨hop, hops⟩ := hn
    rw [granted_cons, offsets]
    obtain ⟨hb, hle, hin⟩ | ⟨b, hb, hp, hle, he⟩ := exec_cases h hop
    · obtain ⟨hg, ho⟩ := ih hin hops
      rw [hb]
      refine ⟨fun b hb => hle.trans (hg b (by simpa using hb)), fun o' ho' => ?_⟩
      obtain rfl | ho' := List.mem_cons.mp ho'
      · exact Nat.le_refl _
      · exact hle.trans (ho o' ho')
    · obtain ⟨hg, ho⟩ := ih (he ▸ hp.2) hops
      have hle' : o.toNat ≤ (exec o op).2.toNat := by omega
      rw [hb]
      constructor
      · intro b' hb'
        rcases List.mem_cons.mp hb' with rfl | hb'
        · exact hle
        · exact hle'.trans (hg b' hb')
      · intro o' ho'
        rcases List.mem_cons.mp ho' with rfl | ho'
        · exact Nat.le_refl _
        · exact hle'.trans (ho o' ho')

theorem sound_of_along {o : UInt64} {ops : List Op} (h : o.toNat ≤ heapSize.toNat)
    (hn : Along exec NoWrap o ops) : Sound o ops := by
  induction ops generalizing o with
  | nil =>
    exact ⟨by simp [granted], by simp [granted], by simpa [offsets] using h, by simp [offsets]⟩
  | cons op ops ih =>
    have hall := beyond_of_along h hn
    obtain ⟨hop, hops⟩ := hn
    have hcases := exec_cases h hop
    have hin : (exec o op).2.toNat ≤ heapSize.toNat := by
      obtain ⟨-, -, hin⟩ | ⟨b, -, hp, -, he⟩ := hcases
      · exact hin
      · exact he ▸ hp.2
    have hs := ih hin hops
    have hbeyond := beyond_of_along hin hops
    refine ⟨?_, ?_, ?_, ?_⟩
    · rw [granted_cons]
      intro b hb
      obtain hb | hb := List.mem_append.mp hb
      · obtain ⟨hnone, -⟩ | ⟨b', hb', hp, -⟩ := hcases
        · simp [hnone] at hb
        · rw [hb', Option.mem_toList] at hb
          exact Option.some_inj.mp hb ▸ hp
      · exact hs.placed b hb
    · rw [granted_cons]
      obtain ⟨hnone, -⟩ | ⟨b', hb', hp, -, he⟩ := hcases
      · rw [hnone]
        exact hs.disjoint
      · rw [hb']
        refine List.pairwise_cons.mpr ⟨fun b hb => ?_, hs.disjoint⟩
        have hge := hbeyond.1 b hb
        exact Set.Ico_disjoint_Ico.mpr (by omega)
    · intro o' ho'
      obtain rfl | ho' := List.mem_cons.mp ho'
      · exact h
      · exact hs.bounded o' ho'
    · exact List.pairwise_cons.mpr
        ⟨fun o' ho' => hall.2 o' (List.mem_cons_of_mem _ ho'), hs.monotone⟩

theorem along_of_sound {o : UInt64} {ops : List Op} (hs : Sound o ops) :
    Along exec NoWrap o ops := by
  induction ops generalizing o with
  | nil => trivial
  | cons op ops ih =>
    obtain ⟨hp, hd, hb, hm⟩ := hs
    rw [granted_cons] at hp hd
    constructor
    · by_contra hn
      obtain ⟨b, hb, hbad⟩ := exec_of_wrap (hb o (head_mem_offsets o _)) hn
      exact hbad (hp b (by simp [hb]))
    · exact ih ⟨fun b hb => hp b (List.mem_append_right _ hb), (List.pairwise_append.mp hd).2.1,
        fun o' ho' => hb o' (List.mem_cons_of_mem _ ho'), (List.pairwise_cons.mp hm).2⟩

/-- From an initialised heap, a run of calls is sound exactly when no allocation
in it makes the checked sum wrap around. -/
theorem run_sound_iff (ops : List Op) :
    Sound heapInit ops ↔ Along exec NoWrap heapInit ops :=
  ⟨along_of_sound, sound_of_along (by decide)⟩

/-- A request close to the size of the word passes the check: after one byte, the
block that starts at sixteen and is `2 ^ 64 - 8` bytes long is handed out. -/
theorem not_sound_huge_size :
    ¬ Sound heapInit [.malloc 1, .malloc (0 - 8)] := by
  intro h
  have hb : (⟨16, 2 ^ 64 - 8⟩ : Block) ∈ granted heapInit [.malloc 1, .malloc (0 - 8)] := by
    decide
  exact absurd (h.placed _ hb).2 (by decide)

end Wnu.Heap
