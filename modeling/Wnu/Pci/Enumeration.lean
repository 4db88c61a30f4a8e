import Mathlib.Data.Nat.Bitwise
import Wnu.Memory.Parts
import Wnu.Pci.Config
import Wnu.Runs.Visits

/-! # The functions of the bus

The functions that are present, as the registers of the configuration space tell, and the
order in which a loop over the buses, their slots and the functions of a slot visits them.
-/

namespace Wnu.Pci

open Memory Runs

variable {cfg : ConfigSpace} {bus slot func : UInt8} {p : UInt8 × UInt8 × UInt8}

/-! ## Places -/

abbrev Place := UInt8 × UInt8 × UInt8

/-- Lexicographic order. -/
def Place.Before : Place → Place → Prop := Prod.Lex (· < ·) (Prod.Lex (· < ·) (· < ·))

def register (cfg : ConfigSpace) (p : Place) (offset : UInt8) : UInt32 :=
  configRead32 cfg p.1 p.2.1 p.2.2 offset

def vendorId (cfg : ConfigSpace) (p : Place) : UInt16 := (register cfg p 0x00).toUInt16

def deviceId (cfg : ConfigSpace) (p : Place) : UInt16 := (register cfg p 0x00 >>> 16).toUInt16

def progIf (cfg : ConfigSpace) (p : Place) : UInt8 := (register cfg p 0x08 >>> 8).toUInt8

def subclass (cfg : ConfigSpace) (p : Place) : UInt8 := (register cfg p 0x08 >>> 16).toUInt8

def classCode (cfg : ConfigSpace) (p : Place) : UInt8 := (register cfg p 0x08 >>> 24).toUInt8

def headerType (cfg : ConfigSpace) (p : Place) : UInt8 := (register cfg p 0x0c >>> 16).toUInt8

/-- The slot of the function is in use, the function itself is, and it is the first one of its slot
or the slot has more than one. -/
structure Present (cfg : ConfigSpace) (p : Place) : Prop where
  slot : p.2.1 < 32
  func : p.2.2 < 8
  slotUsed : vendorId cfg (p.1, p.2.1, 0) ≠ 0xffff
  used : vendorId cfg p ≠ 0xffff
  several : p.2.2 = 0 ∨ (headerType cfg (p.1, p.2.1, 0)).toNat.testBit 7

def deviceAt (cfg : ConfigSpace) (p : Place) : Device where
  bus := p.1
  slot := p.2.1
  func := p.2.2
  vendorId := vendorId cfg p
  deviceId := deviceId cfg p
  classCode := classCode cfg p
  subclass := subclass cfg p
  progIf := progIf cfg p

/-! ## Parts of registers -/

theorem toUInt16_and (x : UInt32) : (x &&& 0xffff).toUInt16 = x.toUInt16 := by
  have hlow : (x &&& 0xffff).toNat = x.toNat % 2 ^ 16 := toNat_low32 x rfl
  apply UInt16.toNat_inj.mp
  rw [UInt32.toNat_toUInt16, hlow, Nat.mod_mod, UInt32.toNat_toUInt16]

theorem toUInt8_and (x : UInt32) : (x &&& 0xff).toUInt8 = x.toUInt8 := by
  have hlow : (x &&& 0xff).toNat = x.toNat % 2 ^ 8 := toNat_low32 x rfl
  apply UInt8.toNat_inj.mp
  rw [UInt32.toNat_toUInt8, hlow, Nat.mod_mod, UInt32.toNat_toUInt8]

theorem configRead16_vendorId : configRead16 cfg bus slot func 0x00 =
    vendorId cfg (bus, slot, func) := by
  have hshift : configRead32 cfg bus slot func 0x00 >>> (((0x00 : UInt8).toUInt32 &&& 2) * 8) =
      configRead32 cfg bus slot func 0x00 := UInt32.shiftRight_zero
  simp only [configRead16, toUInt16_and, hshift, vendorId, register]

theorem configRead16_deviceId : configRead16 cfg bus slot func 0x02 =
    deviceId cfg (bus, slot, func) := toUInt16_and _

theorem configRead8_progIf : configRead8 cfg bus slot func 0x09 =
    progIf cfg (bus, slot, func) := toUInt8_and _

theorem configRead8_subclass : configRead8 cfg bus slot func 0x0a =
    subclass cfg (bus, slot, func) := toUInt8_and _

theorem configRead8_classCode : configRead8 cfg bus slot func 0x0b =
    classCode cfg (bus, slot, func) := toUInt8_and _

theorem configRead8_headerType : configRead8 cfg bus slot func 0x0e =
    headerType cfg (bus, slot, func) := toUInt8_and _

theorem and_0x80_ne_zero (b : UInt8) : b &&& 0x80 ≠ 0 ↔ b.toNat.testBit 7 := by
  have hbit : (b &&& 0x80).toNat = b.toNat &&& 2 ^ 7 := rfl
  have hzero : b &&& 0x80 = 0 ↔ b.toNat &&& 2 ^ 7 = 0 := by
    rw [← UInt8.toNat_inj, hbit]
    rfl
  rw [Ne, hzero, Nat.and_two_pow]
  cases b.toNat.testBit 7 <;> simp

/-! ## Visits -/

theorem mem_bytesBelow {b : UInt8} {n : ℕ} (hn : n ≤ 256) : b ∈ bytesBelow n ↔ b.toNat < n := by
  constructor
  · intro h
    obtain ⟨i, hi, rfl⟩ := List.mem_map.mp h
    have hlt := List.mem_range.mp hi
    rw [UInt8.toNat_ofNat']
    omega
  · intro h
    exact List.mem_map.mpr ⟨b.toNat, List.mem_range.mpr h, UInt8.ofNat_toNat⟩

theorem pairwise_bytesBelow {n : ℕ} (hn : n ≤ 256) : (bytesBelow n).Pairwise (· < ·) := by
  rw [bytesBelow, List.pairwise_map]
  apply List.pairwise_lt_range.imp_of_mem
  rintro i j hi hj hlt
  have hi' := List.mem_range.mp hi
  have hj' := List.mem_range.mp hj
  rw [UInt8.lt_iff_toNat_lt, UInt8.toNat_ofNat', UInt8.toNat_ofNat']
  omega

def functions (cfg : ConfigSpace) (bus slot : UInt8) : List UInt8 :=
  if vendorId cfg (bus, slot, 0) = 0xffff then []
  else bytesBelow (if headerType cfg (bus, slot, 0) &&& 0x80 ≠ 0 then 8 else 1)

/-- Everything that is asked for its identification, in this order. -/
def visited (cfg : ConfigSpace) : List Place :=
  (bytesBelow 256).flatMap fun bus =>
    ((bytesBelow 32).flatMap fun slot =>
      (functions cfg bus slot).map (Prod.mk slot)).map (Prod.mk bus)

theorem mem_functions : func ∈ functions cfg bus slot ↔
    func < 8 ∧ vendorId cfg (bus, slot, 0) ≠ 0xffff ∧
      (func = 0 ∨ (headerType cfg (bus, slot, 0)).toNat.testBit 7) := by
  have height : func < 8 ↔ func.toNat < 8 := UInt8.lt_iff_toNat_lt
  have hzero : func = 0 ↔ func.toNat < 1 := by
    rw [← UInt8.toNat_inj, UInt8.toNat_zero, Nat.lt_one_iff]
  rw [functions, ← and_0x80_ne_zero, height, hzero]
  split
  · rename_i hnone
    simp [hnone]
  rename_i hused
  split
  · rename_i hseveral
    rw [mem_bytesBelow (by decide)]
    simp [hused, hseveral]
  · rename_i hsingle
    rw [mem_bytesBelow (by decide)]
    simp only [hused, hsingle, or_false, ne_eq, not_false_eq_true, true_and]
    omega

theorem mem_visited : p ∈ visited cfg ↔ p.2.1 < 32 ∧ p.2.2 ∈ functions cfg p.1 p.2.1 := by
  obtain ⟨bus, slot, func⟩ := p
  have hslot : slot < 32 ↔ slot.toNat < 32 := UInt8.lt_iff_toNat_lt
  simp [visited, mem_bytesBelow, bus.toNat_lt, hslot]

theorem pairwise_visited (cfg : ConfigSpace) : (visited cfg).Pairwise Place.Before := by
  apply pairwise_lex_flatMap (pairwise_bytesBelow (Nat.le_refl 256))
  intro bus _
  apply pairwise_lex_flatMap (pairwise_bytesBelow (by decide))
  intro slot _
  rw [functions]
  split
  · exact List.Pairwise.nil
  · apply pairwise_bytesBelow
    split <;> decide

def present (cfg : ConfigSpace) : List Place :=
  (visited cfg).filter fun p => vendorId cfg p ≠ 0xffff

theorem mem_present : p ∈ present cfg ↔ Present cfg p := by
  rw [present, List.mem_filter, mem_visited, mem_functions, decide_eq_true_iff]
  constructor
  · rintro ⟨⟨hslot, hfunc, hslotUsed, hseveral⟩, hused⟩
    exact ⟨hslot, hfunc, hslotUsed, hused, hseveral⟩
  · rintro ⟨hslot, hfunc, hslotUsed, hused, hseveral⟩
    exact ⟨⟨hslot, hfunc, hslotUsed, hseveral⟩, hused⟩

theorem pairwise_present (cfg : ConfigSpace) : (present cfg).Pairwise Place.Before :=
  (pairwise_visited cfg).filter _

/-! ## The search -/

theorem matchFunction_eq (vendor device : UInt16) :
    matchFunction cfg p.1 p.2.1 p.2.2 vendor device =
      if vendorId cfg p ≠ 0xffff ∧ vendorId cfg p = vendor ∧ deviceId cfg p = device then
        some (deviceAt cfg p)
      else none := by
  simp only [matchFunction, configRead16_vendorId, configRead16_deviceId, configRead8_classCode,
    configRead8_subclass, configRead8_progIf]
  split
  · rename_i hnone
    rw [if_neg fun h => h.1 hnone]
  · rename_i hused
    simp only [ne_eq, hused, not_false_eq_true, true_and]
    rfl

theorem findDevice_eq (cfg : ConfigSpace) (vendor device : UInt16) :
    findDevice cfg vendor device =
      (visited cfg).findSome? fun p => matchFunction cfg p.1 p.2.1 p.2.2 vendor device := by
  have hslot (bus slot : UInt8) : matchSlot cfg bus slot vendor device =
      (functions cfg bus slot).findSome? fun func =>
        matchFunction cfg bus slot func vendor device := by
    simp only [matchSlot, functions, configRead16_vendorId, configRead8_headerType]
    split <;> rfl
  simp only [findDevice, visited, findSome?_flatMap, List.findSome?_map, hslot]
  rfl

structure Identified (cfg : ConfigSpace) (vendor device : UInt16) (p : Place) : Prop where
  present : Present cfg p
  vendorId : vendorId cfg p = vendor
  deviceId : deviceId cfg p = device

theorem matchFunction_isSome (vendor device : UInt16) :
    p ∈ visited cfg ∧ matchFunction cfg p.1 p.2.1 p.2.2 vendor device ≠ none ↔
      Identified cfg vendor device p := by
  rw [matchFunction_eq]
  constructor
  · rintro ⟨hvisited, hfound⟩
    split at hfound
    · rename_i hids
      obtain ⟨hused, hvendor, hdevice⟩ := hids
      have hmem : p ∈ present cfg := List.mem_filter.mpr ⟨hvisited, decide_eq_true hused⟩
      exact ⟨mem_present.mp hmem, hvendor, hdevice⟩
    · exact absurd rfl hfound
  · rintro ⟨hpresent, hvendor, hdevice⟩
    have hmem := mem_present.mpr hpresent
    refine ⟨(List.mem_filter.mp hmem).1, ?_⟩
    rw [if_pos ⟨hpresent.used, hvendor, hdevice⟩]
    exact Option.some_ne_none _

theorem findDevice_isSome (cfg : ConfigSpace) (vendor device : UInt16) :
    (findDevice cfg vendor device).isSome ↔ ∃ p, Identified cfg vendor device p := by
  rw [findDevice_eq, List.findSome?_isSome_iff]
  constructor
  · rintro ⟨p, hp, hfound⟩
    exact ⟨p, (matchFunction_isSome vendor device).mp ⟨hp, Option.isSome_iff_ne_none.mp hfound⟩⟩
  · rintro ⟨p, hp⟩
    obtain ⟨hmem, hfound⟩ := (matchFunction_isSome vendor device).mpr hp
    exact ⟨p, hmem, Option.isSome_iff_ne_none.mpr hfound⟩

/-- The search finds the first function that is present and has the identification. -/
theorem findDevice_first {vendor device : UInt16} {d : Device}
    (h : findDevice cfg vendor device = some d) :
    ∃ p, Identified cfg vendor device p ∧ d = deviceAt cfg p ∧
      ∀ q, Identified cfg vendor device q → q = p ∨ p.Before q := by
  rw [findDevice_eq] at h
  obtain ⟨p, hp, hfound, hfirst⟩ := findSome?_first (pairwise_visited cfg) h
  have hid : Identified cfg vendor device p :=
    (matchFunction_isSome vendor device).mp ⟨hp, by rw [hfound]; exact Option.some_ne_none d⟩
  refine ⟨p, hid, ?_, fun q hq => ?_⟩
  · rw [matchFunction_eq, if_pos ⟨hid.present.used, hid.vendorId, hid.deviceId⟩] at hfound
    injection hfound with hd
    exact hd.symm
  · obtain ⟨hmem, hne⟩ := (matchFunction_isSome vendor device).mpr hq
    exact hfirst q hmem hne

end Wnu.Pci
