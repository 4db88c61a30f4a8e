import Mathlib.Data.Fin.Tuple.Basic
import Mathlib.Data.Finmap
import Mathlib.Data.Fintype.Card
import Mathlib.Data.Fintype.Pi

/-! # First-fit slot tables

A table is an array of slots, each used or free, and a used slot carries a key.
A key is looked up by the first used slot that carries it and a new entry goes
into the first free slot. While the keys of used slots are distinct, storing,
replacing and freeing a slot are the updates of a map from keys to slots.
-/

namespace Wnu.Slots

variable {n : ℕ} {α κ : Type*}

structure View (α κ : Type*) where
  used : α → Bool
  key : α → κ

variable (V : View α κ)

def free (f : Fin n → α) : Option (Fin n) := Fin.find? fun i => !V.used (f i)

def Distinct (f : Fin n → α) : Prop :=
  ∀ i j, V.used (f i) → V.used (f j) → V.key (f i) = V.key (f j) → i = j

def usedSlots (f : Fin n → α) : Finset (Fin n) := Finset.univ.filter fun i => V.used (f i)

variable {V} {f : Fin n → α} {i : Fin n} {a : α}

@[simp] theorem mem_usedSlots : i ∈ usedSlots V f ↔ V.used (f i) := by simp [usedSlots]

theorem used_eq_false_of_free (h : free V f = some i) : V.used (f i) = false := by
  simpa using (Fin.find?_eq_some_iff.mp h).1

theorem free_eq_none_iff : free V f = none ↔ ∀ i, V.used (f i) = true := by simp [free]

theorem free_isSome_iff : (free V f).isSome ↔ (usedSlots V f).card < n := by
  have hn : (Finset.univ : Finset (Fin n)).card = n := Finset.card_fin n
  rw [← not_iff_not, Option.not_isSome_iff_eq_none, free_eq_none_iff, not_lt]
  constructor
  · intro h
    rw [usedSlots, Finset.filter_true_of_mem fun i _ => h i, hn]
  · intro h i
    have he : usedSlots V f = Finset.univ :=
      Finset.eq_of_subset_of_card_le (Finset.subset_univ _) (hn.le.trans h)
    exact mem_usedSlots.mp (he ▸ Finset.mem_univ i)

theorem Distinct.store (hd : Distinct V f) (hnew : ∀ j, V.used (f j) → V.key (f j) ≠ V.key a) :
    Distinct V (Function.update f i a) := by
  intro j l hj hl hjl
  by_cases hji : j = i <;> by_cases hli : l = i
  · rw [hji, hli]
  · subst hji
    simp only [Function.update_self, Function.update_of_ne hli] at hl hjl
    exact absurd hjl.symm (hnew l hl)
  · subst hli
    simp only [Function.update_self, Function.update_of_ne hji] at hj hjl
    exact absurd hjl (hnew j hj)
  · simp only [Function.update_of_ne hji, Function.update_of_ne hli] at hj hl hjl
    exact hd j l hj hl hjl

theorem Distinct.replace (hd : Distinct V f) (hi : V.used (f i)) (hk : V.key a = V.key (f i)) :
    Distinct V (Function.update f i a) := by
  have hkey (j : Fin n) : V.key (Function.update f i a j) = V.key (f j) := by
    rcases eq_or_ne j i with rfl | hji
    · simpa using hk
    · rw [Function.update_of_ne hji]
  have hused (j : Fin n) (h : V.used (Function.update f i a j)) : V.used (f j) := by
    by_cases hji : j = i
    · rw [hji]; exact hi
    · rwa [Function.update_of_ne hji] at h
  intro j l hj hl hjl
  exact hd j l (hused j hj) (hused l hl) (by rw [← hkey j, ← hkey l, hjl])

theorem Distinct.release (hd : Distinct V f) (ha : V.used a = false) :
    Distinct V (Function.update f i a) := by
  have hold (j : Fin n) (h : V.used (Function.update f i a j)) : j ≠ i := by
    rintro rfl
    simp [ha] at h
  intro j l hj hl hjl
  have hji := hold j hj
  have hli := hold l hl
  rw [Function.update_of_ne hji] at hj hjl
  rw [Function.update_of_ne hli] at hl hjl
  exact hd j l hj hl hjl

theorem card_usedSlots_store (hi : V.used (f i) = false) (ha : V.used a = true) :
    (usedSlots V (Function.update f i a)).card = (usedSlots V f).card + 1 := by
  have h : usedSlots V (Function.update f i a) = insert i (usedSlots V f) := by
    ext j
    rcases eq_or_ne j i with rfl | hji
    · simp [ha]
    · simp [hji]
  rw [h, Finset.card_insert_of_notMem (by simp [hi])]

theorem usedSlots_replace (hi : V.used (f i)) (ha : V.used a = true) :
    usedSlots V (Function.update f i a) = usedSlots V f := by
  ext j
  rcases eq_or_ne j i with rfl | hji
  · simp [ha, hi]
  · simp [hji]

section Lookup

variable [DecidableEq κ] {k : κ}

def find (V : View α κ) (f : Fin n → α) (k : κ) : Option (Fin n) :=
  Fin.find? fun i => V.used (f i) && decide (V.key (f i) = k)

def lookup (V : View α κ) (f : Fin n → α) (k : κ) : Option α := (find V f k).map f

theorem used_of_find (h : find V f k = some i) : V.used (f i) ∧ V.key (f i) = k := by
  simpa using (Fin.find?_eq_some_iff.mp h).1

theorem find_eq_none_iff : find V f k = none ↔ ∀ i, V.used (f i) → V.key (f i) ≠ k := by
  simp [find]

theorem find_eq_some_iff (hd : Distinct V f) :
    find V f k = some i ↔ V.used (f i) ∧ V.key (f i) = k := by
  refine ⟨used_of_find, fun ⟨hu, hk⟩ => ?_⟩
  cases h : find V f k with
  | none => exact absurd hk (find_eq_none_iff.mp h i hu)
  | some j => rw [hd j i (used_of_find h).1 hu ((used_of_find h).2.trans hk.symm)]

theorem lookup_eq_some_iff (hd : Distinct V f) :
    lookup V f k = some a ↔ ∃ i, V.used (f i) ∧ V.key (f i) = k ∧ f i = a := by
  simp [lookup, find_eq_some_iff hd, and_assoc]

theorem lookup_key (hd : Distinct V f) (h : V.used (f i)) :
    lookup V f (V.key (f i)) = some (f i) :=
  (lookup_eq_some_iff hd).mpr ⟨i, h, rfl, rfl⟩

theorem lookup_eq_none_iff : lookup V f k = none ↔ ∀ i, V.used (f i) → V.key (f i) ≠ k := by
  simp [lookup, find_eq_none_iff]

theorem lookup_store (hd : Distinct V f) (hi : V.used (f i) = false) (ha : V.used a = true)
    (hnew : lookup V f (V.key a) = none) (k : κ) :
    lookup V (Function.update f i a) k = if k = V.key a then some a else lookup V f k := by
  have hd' : Distinct V (Function.update f i a) := hd.store (lookup_eq_none_iff.mp hnew)
  split
  · subst k
    exact (lookup_eq_some_iff hd').mpr ⟨i, by simpa using ha, by simp, by simp⟩
  · rename_i hne
    ext b
    rw [lookup_eq_some_iff hd', lookup_eq_some_iff hd]
    apply exists_congr
    intro j
    rcases eq_or_ne j i with rfl | hji
    · have hne' : V.key a ≠ k := fun h => hne h.symm
      simp [hi, hne']
    · rw [Function.update_of_ne hji]

theorem lookup_replace (hd : Distinct V f) (hi : V.used (f i)) (ha : V.used a = true)
    (hk : V.key a = V.key (f i)) (k : κ) :
    lookup V (Function.update f i a) k = if k = V.key a then some a else lookup V f k := by
  have hd' := hd.replace hi hk
  split
  · subst k
    exact (lookup_eq_some_iff hd').mpr ⟨i, by simpa using ha, by simp, by simp⟩
  · rename_i hne
    ext b
    rw [lookup_eq_some_iff hd', lookup_eq_some_iff hd]
    apply exists_congr
    intro j
    rcases eq_or_ne j i with rfl | hji
    · have hne' : V.key a ≠ k := fun h => hne h.symm
      simp [hne', hk ▸ hne']
    · rw [Function.update_of_ne hji]

theorem lookup_release (hd : Distinct V f) (hi : V.used (f i)) (ha : V.used a = false) (k : κ) :
    lookup V (Function.update f i a) k = if k = V.key (f i) then none else lookup V f k := by
  have hd' := hd.release (i := i) ha
  split
  · subst k
    rw [lookup_eq_none_iff]
    intro j hj hjk
    have hji : j ≠ i := by
      rintro rfl
      simp [ha] at hj
    rw [Function.update_of_ne hji] at hj hjk
    exact hji (hd j i hj hi hjk)
  · rename_i hne
    ext b
    rw [lookup_eq_some_iff hd', lookup_eq_some_iff hd]
    apply exists_congr
    intro j
    rcases eq_or_ne j i with rfl | hji
    · have hne' : V.key (f j) ≠ k := fun h => hne h.symm
      simp [ha, hne']
    · rw [Function.update_of_ne hji]

end Lookup

section Finmap

variable [DecidableEq κ] {β : Type*} (V) (val : α → β) (f)

def toFinmap : Finmap fun _ : κ => β :=
  (((List.finRange n).filter fun i => V.used (f i)).map
    fun i => (⟨V.key (f i), val (f i)⟩ : Sigma fun _ : κ => β)).toFinmap

variable {V f}

theorem lookup_toFinmap (hd : Distinct V f) (k : κ) :
    (toFinmap V f val).lookup k = (lookup V f k).map val := by
  have hnd : (((List.finRange n).filter fun i => V.used (f i)).map
      fun i => (⟨V.key (f i), val (f i)⟩ : Sigma fun _ : κ => β)).NodupKeys := by
    rw [List.NodupKeys, List.keys, List.map_map]
    apply ((List.nodup_finRange n).filter _).map_on
    intro i hi j hj hij
    exact hd i j (List.mem_filter.mp hi).2 (List.mem_filter.mp hj).2 hij
  rw [toFinmap, Finmap.dlookup_list_toFinmap]
  ext b
  rw [← Option.mem_def, List.mem_dlookup_iff hnd, Option.map_eq_some_iff]
  simp only [List.mem_map, List.mem_filter, List.mem_finRange, true_and, Sigma.mk.injEq,
    heq_eq_eq, lookup_eq_some_iff hd]
  constructor
  · rintro ⟨i, hi, hk, hb⟩
    exact ⟨f i, ⟨i, hi, hk, rfl⟩, hb⟩
  · rintro ⟨_, ⟨i, hi, hk, rfl⟩, hb⟩
    exact ⟨i, hi, hk, hb⟩

theorem mem_toFinmap (hd : Distinct V f) {k : κ} :
    k ∈ toFinmap V f val ↔ ∃ i, V.used (f i) ∧ V.key (f i) = k := by
  rw [← Finmap.lookup_isSome, lookup_toFinmap val hd, Option.isSome_map, Option.isSome_iff_exists]
  simp only [lookup_eq_some_iff hd]
  exact ⟨fun ⟨_, i, hi, hk, _⟩ => ⟨i, hi, hk⟩, fun ⟨i, hi, hk⟩ => ⟨_, i, hi, hk, rfl⟩⟩

theorem card_keys_toFinmap (hd : Distinct V f) :
    (toFinmap V f val).keys.card = (usedSlots V f).card := by
  have h : (toFinmap V f val).keys = (usedSlots V f).image fun i => V.key (f i) := by
    ext k
    simp [Finmap.mem_keys, mem_toFinmap val hd]
  rw [h, Finset.card_image_of_injOn]
  intro i hi j hj hij
  exact hd i j (mem_usedSlots.mp hi) (mem_usedSlots.mp hj) hij

end Finmap

end Wnu.Slots
