import Mathlib.Data.Vector.Defs
import Wnu.Memory.Packed

/-! # The header of an executable

A program is started at the entry that its header names, if the header is one of an
executable for this processor. Nothing of the file is placed in memory, and the header is
all that is looked at. It is a packed structure, so the bytes of a file and the header
determine each other.
-/

namespace Wnu.Elf

open Memory

/-- `struct ElfHeader` -/
structure Header where
  ident : Vector UInt8 16
  type : UInt16
  machine : UInt16
  version : UInt32
  entry : UInt64
  phoff : UInt64
  shoff : UInt64
  flags : UInt32
  ehsize : UInt16
  phentsize : UInt16
  phnum : UInt16
  shentsize : UInt16
  shnum : UInt16
  shstrndx : UInt16
  deriving DecidableEq

def widths : List ℕ := List.replicate 16 1 ++ [2, 2, 4, 8, 8, 8, 4, 2, 2, 2, 2, 2, 2]

/-- `sizeof(struct ElfHeader)` -/
def headerSize : ℕ := 64

/-- `(const struct ElfHeader *)data` -/
def Header.load (data : Mem UInt8) : Header where
  ident := Vector.ofFn fun i => data i
  type := UInt16.ofNat (loadLE data 16 2)
  machine := UInt16.ofNat (loadLE data 18 2)
  version := UInt32.ofNat (loadLE data 20 4)
  entry := UInt64.ofNat (loadLE data 24 8)
  phoff := UInt64.ofNat (loadLE data 32 8)
  shoff := UInt64.ofNat (loadLE data 40 8)
  flags := UInt32.ofNat (loadLE data 48 4)
  ehsize := UInt16.ofNat (loadLE data 52 2)
  phentsize := UInt16.ofNat (loadLE data 54 2)
  phnum := UInt16.ofNat (loadLE data 56 2)
  shentsize := UInt16.ofNat (loadLE data 58 2)
  shnum := UInt16.ofNat (loadLE data 60 2)
  shstrndx := UInt16.ofNat (loadLE data 62 2)

/-- `elf_load`: the pointer that it returns, and `*entry_point` after it, if there is one. -/
def elfLoad (data : Mem UInt8) (size : ℕ) (entryPoint : Option UInt64) :
    UInt64 × Option UInt64 :=
  if size < headerSize then (0, entryPoint)
  else
    let header := Header.load data
    if header.ident.get 0 ≠ 0x7f ∨ header.ident.get 1 ≠ 'E'.toUInt8 ∨
        header.ident.get 2 ≠ 'L'.toUInt8 ∨ header.ident.get 3 ≠ 'F'.toUInt8 then (0, entryPoint)
    else if header.type ≠ 2 ∨ header.machine ≠ 0x3e ∨ header.version ≠ 1 then (0, entryPoint)
    else (header.entry, entryPoint.map fun _ => header.entry)

/-- `elf_exec`: the address that it calls, if it calls one. The variable for the entry holds
something before. -/
def elfExec (data : Mem UInt8) (size : ℕ) (entryPoint : UInt64) : Option UInt64 :=
  let (loaded, entryPoint) := elfLoad data size (some entryPoint)
  if loaded = 0 then none else entryPoint

/-! ## Bytes -/

def Header.values (h : Header) : List ℕ :=
  h.ident.toList.map UInt8.toNat ++ [h.type.toNat, h.machine.toNat, h.version.toNat,
    h.entry.toNat, h.phoff.toNat, h.shoff.toNat, h.flags.toNat, h.ehsize.toNat,
    h.phentsize.toNat, h.phnum.toNat, h.shentsize.toNat, h.shnum.toNat, h.shstrndx.toNat]

def Header.bytes (h : Header) : List UInt8 := fieldBytes widths h.values

theorem Header.values_load (p : Mem UInt8) : (Header.load p).values = loadFields p 0 widths := by
  have hident : (Header.load p).ident.toList.map UInt8.toNat =
      loadFields p 0 (List.replicate 16 1) := by
    simp [Header.load, List.replicate, loadFields, loadLE_one, Vector.toList_ofFn, List.ofFn_succ]
  rw [Header.values, hident, widths, loadFields_append]
  simp only [Header.load, toNat_loadLE_two, toNat_loadLE_four, toNat_loadLE_eight]
  rfl

theorem Header.values_injective : Function.Injective Header.values := by
  rintro ⟨ident, _⟩ ⟨ident', _⟩ heq
  rw [Header.values, Header.values] at heq
  obtain ⟨hident, hrest⟩ := List.append_inj heq (by simp)
  have hsame : ident = ident' :=
    Vector.toList_inj.mp (List.map_injective_iff.mpr (fun _ _ => UInt8.toNat_inj.mp) hident)
  simp only [List.cons.injEq, UInt16.toNat_inj, UInt32.toNat_inj, UInt64.toNat_inj] at hrest
  simp only [hsame, hrest]

theorem Header.fits (h : Header) : Fits widths h.values := by
  have hident : Fits (List.replicate 16 1) (h.ident.toList.map UInt8.toNat) := by
    have hbytes := fits_bytes h.ident.toList
    rwa [Vector.length_toList] at hbytes
  apply List.rel_append hident
  have h16 (x : UInt16) : x.toNat < 65536 := x.toNat_lt
  have h32 (x : UInt32) : x.toNat < 4294967296 := x.toNat_lt
  have h64 (x : UInt64) : x.toNat < 18446744073709551616 := x.toNat_lt
  simp [h16, h32, h64]

/-- Every block of this size is the bytes of one header, the one that is read. -/
theorem Header.bytes_eq_iff (data : Mem UInt8) (h : Header) :
    window data headerSize = h.bytes ↔ h = Header.load data :=
  window_eq_fieldBytes_iff values_load fits values_injective data h

def Header.Loadable (h : Header) : Prop :=
  (h.ident.get 0 = 0x7f ∧ h.ident.get 1 = 'E'.toUInt8 ∧ h.ident.get 2 = 'L'.toUInt8 ∧
    h.ident.get 3 = 'F'.toUInt8) ∧ h.type = 2 ∧ h.machine = 0x3e ∧ h.version = 1

instance (h : Header) : Decidable h.Loadable := inferInstanceAs (Decidable (_ ∧ _))

theorem elfLoad_eq (data : Mem UInt8) (size : ℕ) (entryPoint : Option UInt64) :
    elfLoad data size entryPoint =
      if headerSize ≤ size ∧ (Header.load data).Loadable then
        ((Header.load data).entry, entryPoint.map fun _ => (Header.load data).entry)
      else (0, entryPoint) := by
  rw [elfLoad]
  dsimp only
  by_cases hsize : size < headerSize
  · rw [if_pos hsize, if_neg fun h => absurd h.1 (Nat.not_le.mpr hsize)]
  rw [if_neg hsize]
  by_cases hload : (Header.load data).Loadable
  · obtain ⟨⟨h0, h1, h2, h3⟩, htype, hmachine, hversion⟩ := id hload
    rw [if_neg (by simp [h0, h1, h2, h3]), if_neg (by simp [htype, hmachine, hversion]),
      if_pos ⟨Nat.not_lt.mp hsize, hload⟩]
  · have hboth : ¬ (headerSize ≤ size ∧ (Header.load data).Loadable) := fun h => hload h.2
    rw [if_neg hboth]
    split
    · rfl
    · rename_i hident
      rw [if_pos]
      by_contra hno
      simp only [not_or, not_not] at hident hno
      exact hload ⟨hident, hno⟩

/-- A file starts with the bytes of one header. If the file is long enough and the header is one of
an executable for this processor, the entry is given back and stored, and `elf_exec` calls it
unless it is the null pointer. Otherwise nothing is stored and nothing is called. No other byte of
the file is looked at. -/
theorem elfExec_header (data : Mem UInt8) (size : ℕ) :
    ∃ h : Header, (∀ h', window data headerSize = h'.bytes ↔ h' = h) ∧
      (∀ entryPoint, elfLoad data size entryPoint =
        if headerSize ≤ size ∧ h.Loadable then (h.entry, entryPoint.map fun _ => h.entry)
        else (0, entryPoint)) ∧
      ∀ entryPoint address, elfExec data size entryPoint = some address ↔
        headerSize ≤ size ∧ h.Loadable ∧ h.entry = address ∧ address ≠ 0 := by
  refine ⟨Header.load data, fun h' => Header.bytes_eq_iff data h', elfLoad_eq data size, ?_⟩
  intro entryPoint address
  rw [elfExec, elfLoad_eq]
  by_cases hload : headerSize ≤ size ∧ (Header.load data).Loadable
  · rw [if_pos hload]
    simp only [hload, true_and, Option.map_some]
    constructor
    · intro h
      split at h
      · cases h
      · rename_i hne
        obtain rfl := Option.some.inj h
        exact ⟨rfl, hne⟩
    · rintro ⟨rfl, hne⟩
      exact if_neg hne
  · rw [if_neg hload, ← and_assoc, iff_false_intro hload, false_and, iff_false]
    exact Option.some_ne_none _ ∘ Eq.symm

end Wnu.Elf
