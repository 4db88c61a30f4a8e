import Mathlib.Algebra.Ring.Nat
import Wnu.Memory.LittleEndian

/-! # Packed structures

The fields of a packed structure stand one after the other, each as a little-endian number
of its own width. The fields and the bytes determine each other.
-/

namespace Wnu.Memory

variable {p q : Mem UInt8} {i j : ℕ}

def loadFields (p : Mem UInt8) : ℕ → List ℕ → List ℕ
  | _, [] => []
  | i, n :: ns => loadLE p i n :: loadFields p (i + n) ns

def storeFields (p : Mem UInt8) : ℕ → List ℕ → List ℕ → Mem UInt8
  | i, n :: ns, v :: vs => storeFields (storeLE p i n v) (i + n) ns vs
  | _, _, _ => p

def fieldBytes : List ℕ → List ℕ → List UInt8
  | n :: ns, v :: vs => window (bytesLE v) n ++ fieldBytes ns vs
  | _, _ => []

def Fits : List ℕ → List ℕ → Prop := List.Forall₂ fun n v => v < 256 ^ n

/-! ## Bytes and numbers -/

theorem loadLE_lt (p : Mem UInt8) (i n : ℕ) : loadLE p i n < 256 ^ n := by
  induction n with
  | zero => exact Nat.one_pos
  | succ n ih =>
    rw [loadLE_add, loadLE_one, Nat.pow_succ]
    calc loadLE p i n + 256 ^ n * (p (i + n)).toNat
        < 256 ^ n + 256 ^ n * (p (i + n)).toNat := Nat.add_lt_add_right ih _
      _ = 256 ^ n * ((p (i + n)).toNat + 1) := by rw [Nat.mul_add_one, Nat.add_comm]
      _ ≤ 256 ^ n * 256 := Nat.mul_le_mul_left _ (UInt8.toNat_lt _)

theorem toNat_loadLE_two (p : Mem UInt8) (i : ℕ) :
    (UInt16.ofNat (loadLE p i 2)).toNat = loadLE p i 2 :=
  UInt16.toNat_ofNat_of_lt (loadLE_lt p i 2)

theorem toNat_loadLE_four (p : Mem UInt8) (i : ℕ) :
    (UInt32.ofNat (loadLE p i 4)).toNat = loadLE p i 4 :=
  UInt32.toNat_ofNat_of_lt (loadLE_lt p i 4)

theorem toNat_loadLE_eight (p : Mem UInt8) (i : ℕ) :
    (UInt64.ofNat (loadLE p i 8)).toNat = loadLE p i 8 :=
  UInt64.toNat_ofNat_of_lt (loadLE_lt p i 8)

theorem byte_loadLE (p : Mem UInt8) (i : ℕ) {j n : ℕ} (h : j < n) :
    UInt8.ofNat (loadLE p i n / 256 ^ j) = p (i + j) := by
  obtain ⟨k, rfl⟩ : ∃ k, n = j + (1 + k) := ⟨n - j - 1, by omega⟩
  rw [loadLE_add, Nat.add_mul_div_left _ _ (Nat.pow_pos (by decide)),
    Nat.div_eq_of_lt (loadLE_lt p i j), Nat.zero_add, loadLE_add, loadLE_one, pow_one]
  apply UInt8.toNat_inj.mp
  rw [UInt8.toNat_ofNat', Nat.add_mul_mod_self_left]
  exact Nat.mod_eq_of_lt (UInt8.toNat_lt _)

theorem window_bytesLE_loadLE (p : Mem UInt8) (i n : ℕ) :
    window (bytesLE (loadLE p i n)) n = window (fun j => p (i + j)) n :=
  window_congr fun _ hj => byte_loadLE p i hj

theorem loadLE_bytesLE (v n : ℕ) : loadLE (bytesLE v) 0 n = v % 256 ^ n := by
  rw [← loadLE_storeLE (fun _ => 0) 0 n v]
  exact loadLE_congr fun j hj => by rw [storeLE_apply, if_pos (by omega), Nat.zero_add]; rfl

theorem window_bytesLE_inj {n v w : ℕ} (hv : v < 256 ^ n) (hw : w < 256 ^ n) :
    window (bytesLE v) n = window (bytesLE w) n ↔ v = w := by
  constructor
  · intro h
    have hload : loadLE (bytesLE v) 0 n = loadLE (bytesLE w) 0 n := by
      simp only [loadLE, Nat.zero_add, h]
    rwa [loadLE_bytesLE, loadLE_bytesLE, Nat.mod_eq_of_lt hv, Nat.mod_eq_of_lt hw] at hload
  · rintro rfl
    rfl

/-! ## Fields -/

theorem loadFields_append (p : Mem UInt8) (i : ℕ) (ns ms : List ℕ) :
    loadFields p i (ns ++ ms) = loadFields p i ns ++ loadFields p (i + ns.sum) ms := by
  induction ns generalizing i with
  | nil => rfl
  | cons n ns ih =>
    rw [List.cons_append, loadFields, ih, loadFields, List.sum_cons, Nat.add_assoc,
      List.cons_append]

theorem fits_bytes (bs : List UInt8) : Fits (List.replicate bs.length 1) (bs.map UInt8.toNat) := by
  induction bs with
  | nil => exact .nil
  | cons b bs ih => exact .cons (UInt8.toNat_lt b) ih

theorem fieldBytes_loadFields (p : Mem UInt8) (i : ℕ) (ns : List ℕ) :
    fieldBytes ns (loadFields p i ns) = window (fun j => p (i + j)) ns.sum := by
  induction ns generalizing i with
  | nil => rfl
  | cons n ns ih =>
    rw [loadFields, fieldBytes, window_bytesLE_loadLE, ih, List.sum_cons, window_add]
    simp only [Nat.add_assoc]

theorem fieldBytes_inj {ns vs ws : List ℕ} (hv : Fits ns vs) (hw : Fits ns ws) :
    fieldBytes ns vs = fieldBytes ns ws ↔ vs = ws := by
  constructor
  · intro h
    induction hv generalizing ws with
    | nil =>
      cases hw
      rfl
    | cons hv _ ih =>
      cases hw with
      | cons hw hws =>
        obtain ⟨hfirst, hrest⟩ := List.append_inj h (by rw [length_window, length_window])
        rw [(window_bytesLE_inj hv hw).mp hfirst, ih hws hrest]
  · rintro rfl
    rfl

/-- A structure that is given by its fields: a block of bytes is the bytes of one, the one that is
read from it. -/
theorem window_eq_fieldBytes_iff {α : Type*} {ns : List ℕ} {values : α → List ℕ}
    {load : Mem UInt8 → α} (hload : ∀ p, values (load p) = loadFields p 0 ns)
    (hfits : ∀ a, Fits ns (values a)) (hinj : Function.Injective values) (p : Mem UInt8) (a : α) :
    window p ns.sum = fieldBytes ns (values a) ↔ a = load p := by
  have hread : window p ns.sum = fieldBytes ns (values (load p)) := by
    rw [hload, fieldBytes_loadFields]
    simp only [Nat.zero_add]
  rw [hread, fieldBytes_inj (hfits _) (hfits a), hinj.eq_iff]
  exact eq_comm

theorem storeFields_of_outside {ns : List ℕ} (vs : List ℕ) (h : j < i ∨ i + ns.sum ≤ j) :
    storeFields p i ns vs j = p j := by
  induction ns generalizing p i vs with
  | nil => rfl
  | cons n ns ih =>
    cases vs with
    | nil => rfl
    | cons v vs =>
      rw [List.sum_cons] at h
      rw [storeFields, ih vs (by omega), storeLE_apply, if_neg (by omega)]

/-- The fields that have been stored are loaded again. -/
theorem loadFields_storeFields {ns vs : List ℕ} (h : Fits ns vs) (p : Mem UInt8) (i : ℕ) :
    loadFields (storeFields p i ns vs) i ns = vs := by
  induction h generalizing p i with
  | nil => rfl
  | @cons n v ns vs hv _ ih =>
    have hfirst : loadLE (storeFields (storeLE p i n v) (i + n) ns vs) i n = v := by
      rw [loadLE_congr fun j hj => storeFields_of_outside vs (.inl (by omega)), loadLE_storeLE,
        Nat.mod_eq_of_lt hv]
    rw [storeFields, loadFields, hfirst, ih]

end Wnu.Memory
