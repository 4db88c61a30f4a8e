import Wnu.Memory.Packed
import Wnu.Memory.Parts
import Wnu.Runs.Loops

/-! # The interrupt descriptors

The kernel clears its table and fills in one entry, by its fields. The processor reads an
entry in its own way: it puts the address of the handler together again from three places.
For every address of the stub the two agree, and no other interrupt has a handler.
-/

namespace Wnu.Arch

open Memory Runs

/-! ## What the kernel writes -/

/-- `KERNEL_CS` -/
abbrev kernelCs : UInt16 := 0x28

/-- `struct idt_entry` -/
structure IdtEntry where
  offsetLow : UInt16
  selector : UInt16
  ist : UInt8
  typeAttr : UInt8
  offsetMid : UInt16
  offsetHigh : UInt32
  zero : UInt32

/-- `(struct idt_entry){0}` -/
def IdtEntry.cleared : IdtEntry := ⟨0, 0, 0, 0, 0, 0, 0⟩

def IdtEntry.widths : List ℕ := [2, 2, 1, 1, 2, 4, 4]

def IdtEntry.values (e : IdtEntry) : List ℕ :=
  [e.offsetLow.toNat, e.selector.toNat, e.ist.toNat, e.typeAttr.toNat, e.offsetMid.toNat,
    e.offsetHigh.toNat, e.zero.toNat]

/-- `idt[i] = e` -/
def assign (i : ℕ) (e : IdtEntry) (idt : Mem UInt8) : Mem UInt8 :=
  storeFields idt (16 * i) IdtEntry.widths e.values

/-- What `set_idt_entry` puts into the entry of a vector. -/
def entryFor (address : UInt64) : IdtEntry where
  offsetLow := (address &&& 0xffff).toUInt16
  selector := kernelCs
  ist := 0
  typeAttr := 0x8e
  offsetMid := ((address >>> 16) &&& 0xffff).toUInt16
  offsetHigh := ((address >>> 32) &&& 0xffffffff).toUInt32
  zero := 0

/-- `set_idt_entry` -/
def setIdtEntry (vector : UInt8) (handler : UInt64) : Mem UInt8 → Mem UInt8 :=
  assign vector.toNat (entryFor handler)

/-- The number of entries of `idt`. -/
abbrev idtLength : ℕ := 256

/-- The register that `load_idt` loads: `struct idt_ptr`. -/
structure IdtPtr where
  limit : UInt16
  base : UInt64

/-- `load_idt` -/
def loadIdt (base : UInt64) : IdtPtr := ⟨UInt16.ofNat (16 * idtLength - 1), base⟩

/-- The table after `wnu_arch_init`. -/
def archInit (stub : UInt64) (idt : Mem UInt8) : Mem UInt8 :=
  setIdtEntry 0x21 stub (forLoop idtLength (fun i => assign i .cleared) idt)

/-! ## What the processor reads -/

structure Gate where
  handler : ℕ
  selector : ℕ
  stackTable : ℕ
  type : ℕ
  privilege : ℕ
  present : Bool
  deriving DecidableEq

def gateAt (idt : Mem UInt8) (i : ℕ) : Gate where
  handler := loadLE idt i 2 + 2 ^ 16 * loadLE idt (i + 6) 2 + 2 ^ 32 * loadLE idt (i + 8) 4
  selector := loadLE idt (i + 2) 2
  stackTable := (idt (i + 4)).toNat % 8
  type := (idt (i + 5)).toNat % 16
  privilege := (idt (i + 5)).toNat / 32 % 4
  present := (idt (i + 5)).toNat / 128 = 1

/-- The gate of a vector, if the table has one that is present. -/
def gateOf (idt : Mem UInt8) (limit v : ℕ) : Option Gate :=
  if 16 * v + 15 ≤ limit ∧ (gateAt idt (16 * v)).present then some (gateAt idt (16 * v)) else none

/-! ## Entries -/

variable {idt : Mem UInt8} {i j : ℕ} {e : IdtEntry}

theorem IdtEntry.fits (e : IdtEntry) : Fits widths e.values := by
  have h8 (x : UInt8) : x.toNat < 256 := x.toNat_lt
  have h16 (x : UInt16) : x.toNat < 65536 := x.toNat_lt
  have h32 (x : UInt32) : x.toNat < 4294967296 := x.toNat_lt
  simp [Fits, widths, values, h8, h16, h32]

def IdtEntry.gate (e : IdtEntry) : Gate where
  handler := e.offsetLow.toNat + 2 ^ 16 * e.offsetMid.toNat + 2 ^ 32 * e.offsetHigh.toNat
  selector := e.selector.toNat
  stackTable := e.ist.toNat % 8
  type := e.typeAttr.toNat % 16
  privilege := e.typeAttr.toNat / 32 % 4
  present := e.typeAttr.toNat / 128 = 1

theorem gateAt_assign (i : ℕ) (e : IdtEntry) (idt : Mem UInt8) :
    gateAt (assign i e idt) (16 * i) = e.gate := by
  have hfields := loadFields_storeFields e.fits idt (16 * i)
  rw [← assign] at hfields
  simp only [IdtEntry.widths, loadFields, IdtEntry.values, List.cons.injEq, loadLE_one,
    Nat.add_assoc, and_true] at hfields
  obtain ⟨hlow, hselector, hist, htype, hmid, hhigh, -⟩ := hfields
  simp only [gateAt, IdtEntry.gate, hlow, hselector, hist, htype, hmid, hhigh]

theorem gateAt_congr {idt' : Mem UInt8} (h : ∀ a, i ≤ a → a < i + 16 → idt' a = idt a) :
    gateAt idt' i = gateAt idt i := by
  have hload (k n : ℕ) (hk : k + n ≤ 16) : loadLE idt' (i + k) n = loadLE idt (i + k) n :=
    loadLE_congr fun a ha => h _ (by omega) (by omega)
  have hlow : loadLE idt' i 2 = loadLE idt i 2 := hload 0 2 (by decide)
  simp only [gateAt, hlow, hload 6 2 (by decide), hload 8 4 (by decide), hload 2 2 (by decide),
    h (i + 4) (by omega) (by omega), h (i + 5) (by omega) (by omega)]

theorem gateAt_assign_of_ne (h : j ≠ i) (e : IdtEntry) (idt : Mem UInt8) :
    gateAt (assign i e idt) (16 * j) = gateAt idt (16 * j) := by
  apply gateAt_congr
  intro a ha ha'
  apply storeFields_of_outside
  have hsum : IdtEntry.widths.sum = 16 := rfl
  omega

theorem gate_entryFor (address : UInt64) : (entryFor address).gate =
    { handler := address.toNat, selector := 0x28, stackTable := 0, type := 0xe, privilege := 0,
      present := true } := by
  have hlow : (entryFor address).offsetLow.toNat = address.toNat % 2 ^ 16 := by
    have hpart : (address &&& 0xffff).toNat = address.toNat % 2 ^ 16 := toNat_low64 address rfl
    exact (UInt64.toNat_toUInt16 _).trans (by rw [hpart, Nat.mod_mod])
  have hmid : (entryFor address).offsetMid.toNat = address.toNat / 2 ^ 16 % 2 ^ 16 := by
    have hpart : ((address >>> 16) &&& 0xffff).toNat = address.toNat / 2 ^ 16 % 2 ^ 16 := by
      have hshifted : (address >>> 16).toNat = address.toNat / 2 ^ 16 := toNat_high64 address rfl
      rw [← hshifted]
      exact toNat_low64 _ rfl
    exact (UInt64.toNat_toUInt16 _).trans (by rw [hpart, Nat.mod_mod])
  have hhigh : (entryFor address).offsetHigh.toNat = address.toNat / 2 ^ 32 % 2 ^ 32 := by
    have hpart : ((address >>> 32) &&& 0xffffffff).toNat = address.toNat / 2 ^ 32 % 2 ^ 32 := by
      have hshifted : (address >>> 32).toNat = address.toNat / 2 ^ 32 := toNat_high64 address rfl
      rw [← hshifted]
      exact toNat_low64 _ rfl
    exact (UInt64.toNat_toUInt32 _).trans (by rw [hpart, Nat.mod_mod])
  have hsum : address.toNat % 2 ^ 16 + 2 ^ 16 * (address.toNat / 2 ^ 16 % 2 ^ 16) +
      2 ^ 32 * (address.toNat / 2 ^ 32 % 2 ^ 32) = address.toNat := by
    have hlt := address.toNat_lt
    omega
  have hselector : (entryFor address).selector.toNat = 0x28 := rfl
  have hist : (entryFor address).ist.toNat = 0 := rfl
  have hattr : (entryFor address).typeAttr.toNat = 0x8e := rfl
  rw [IdtEntry.gate, hlow, hmid, hhigh, hsum, hselector, hist, hattr]
  simp only [Gate.mk.injEq, true_and]
  decide

theorem present_cleared (n : ℕ) (idt : Mem UInt8) {v : ℕ} (hv : v < n) :
    (gateAt (forLoop n (fun i => assign i .cleared) idt) (16 * v)).present = false := by
  have hstep : ∀ i < n, ∀ idt, (∀ v < i, (gateAt idt (16 * v)).present = false) →
      ∀ v < i + 1, (gateAt (assign i .cleared idt) (16 * v)).present = false := by
    intro i _ idt h v hv
    by_cases hvi : v = i
    · rw [hvi, gateAt_assign]
      rfl
    · rw [gateAt_assign_of_ne hvi]
      exact h v (by omega)
  exact forLoop_invariant (P := fun n idt => ∀ v < n, (gateAt idt (16 * v)).present = false)
    (fun v hv => absurd hv v.not_lt_zero) hstep v hv

theorem gateOf_keyboard (stub base : UInt64) (idt : Mem UInt8) :
    gateOf (archInit stub idt) (loadIdt base).limit.toNat 0x21 =
      some { handler := stub.toNat, selector := 0x28, stackTable := 0, type := 0xe,
             privilege := 0, present := true } := by
  have hlimit : (loadIdt base).limit.toNat = 16 * idtLength - 1 := rfl
  have hvector : (0x21 : UInt8).toNat = 0x21 := rfl
  have hgate : gateAt (archInit stub idt) (16 * 0x21) = (entryFor stub).gate := by
    rw [archInit, setIdtEntry, hvector, gateAt_assign]
  rw [gateOf, hlimit, hgate, gate_entryFor, if_pos ⟨by decide, rfl⟩]

/-- Whatever the table held and wherever the stub is: interrupt 0x21 has a handler, the stub, behind
a gate that disables interrupts, with the code segment of the kernel. No other interrupt has one. -/
theorem gateOf_archInit (stub base : UInt64) (idt : Mem UInt8) (v : ℕ) :
    gateOf (archInit stub idt) (loadIdt base).limit.toNat v =
      if v = 0x21 then
        some { handler := stub.toNat, selector := 0x28, stackTable := 0, type := 0xe,
               privilege := 0, present := true }
      else none := by
  have hlimit : (loadIdt base).limit.toNat = 16 * idtLength - 1 := rfl
  have hvector : (0x21 : UInt8).toNat = 0x21 := rfl
  by_cases hv : v = 0x21
  · rw [hv, gateOf_keyboard, if_pos rfl]
  · rw [gateOf, hlimit, archInit, setIdtEntry, hvector, gateAt_assign_of_ne hv, if_neg hv, if_neg]
    rintro ⟨hin, hpresent⟩
    rw [present_cleared idtLength idt (by rw [idtLength] at hin ⊢; omega)] at hpresent
    cases hpresent

end Wnu.Arch
