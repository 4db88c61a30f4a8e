import Wnu.Memory.Bytes
import Wnu.Pci.Enumeration

/-! # The table of controllers

The scan for controllers asks every function of the bus for its class. It has its own
loops, which are left when the table is full.
-/

namespace Wnu.Sata

open Memory Pci Runs

/-- `struct sata_ctrl_info` -/
structure CtrlInfo where
  bus : UInt8
  slot : UInt8
  func : UInt8
  vendorId : UInt16
  deviceId : UInt16
  classCode : UInt8
  subclass : UInt8
  progIf : UInt8
  bar : Vector UInt32 6
  deriving DecidableEq

/-- `sata_ctrls` and `sata_ctrl_count` -/
structure Controllers where
  ctrls : Mem CtrlInfo
  count : ℕ

structure Table extends Controllers where
  printed : List String

/-- `SATA_MAX_CONTROLLERS` -/
abbrev maxControllers : ℕ := 16

abbrev massStorage : UInt8 := 0x01

abbrev sataSubclass : UInt8 := 0x06

variable (cfg : ConfigSpace) (bus slot func : UInt8)

/-- `pci_read_bar` -/
def readBar (barIndex : ℕ) : UInt32 :=
  configRead32 cfg bus slot func (UInt8.ofNat (0x10 + barIndex * 4))

def scanFunction (t : Table) : Bool × Table :=
  let vendorId := configRead16 cfg bus slot func 0x00
  if vendorId = 0xffff then (true, t)
  else
    let deviceId := configRead16 cfg bus slot func 0x02
    let classCode := configRead8 cfg bus slot func 0x0b
    let subclass := configRead8 cfg bus slot func 0x0a
    let progIf := configRead8 cfg bus slot func 0x09
    if classCode ≠ massStorage ∨ subclass ≠ sataSubclass then (true, t)
    else if t.count ≥ maxControllers then
      (false, { t with printed := "sata: controller table full\n" :: t.printed })
    else
      let ctrl : CtrlInfo :=
        { bus, slot, func, vendorId, deviceId, classCode, subclass, progIf
          bar := Vector.ofFn fun i => readBar cfg bus slot func i.val }
      (true, { t with ctrls := Function.update t.ctrls t.count ctrl, count := t.count + 1 })

def scanSlot (t : Table) : Bool × Table :=
  let vendor := configRead16 cfg bus slot 0 0x00
  if vendor = 0xffff then (true, t)
  else
    let headerType := configRead8 cfg bus slot 0 0x0e
    let funcCount := if headerType &&& 0x80 ≠ 0 then 8 else 1
    forEach (fun func => scanFunction cfg bus slot func) (bytesBelow funcCount) t

/-- `sata_scan_pci` -/
def scanPci (t : Table) : Table :=
  let t := { t with count := 0 }
  (forEach (fun bus => forEach (fun slot => scanSlot cfg bus slot) (bytesBelow 32))
    (bytesBelow 256) t).2

variable {cfg : ConfigSpace} {bus slot : UInt8} {p : Place} {t : Table}

/-! ## The controllers -/

/-- A function that is present and is a SATA controller. -/
structure IsController (cfg : ConfigSpace) (p : Place) : Prop where
  present : Present cfg p
  classCode : classCode cfg p = massStorage
  subclass : subclass cfg p = sataSubclass

def ctrlInfoAt (cfg : ConfigSpace) (p : Place) : CtrlInfo where
  bus := p.1
  slot := p.2.1
  func := p.2.2
  vendorId := vendorId cfg p
  deviceId := deviceId cfg p
  classCode := classCode cfg p
  subclass := subclass cfg p
  progIf := progIf cfg p
  bar := Vector.ofFn fun i => register cfg p (UInt8.ofNat (0x10 + i.val * 4))

def controllers (cfg : ConfigSpace) : List Place :=
  (present cfg).filter fun p => classCode cfg p = massStorage ∧ subclass cfg p = sataSubclass

theorem mem_controllers : p ∈ controllers cfg ↔ IsController cfg p := by
  rw [controllers, List.mem_filter, mem_present, decide_eq_true_iff]
  constructor
  · rintro ⟨hpresent, hclass, hsubclass⟩
    exact ⟨hpresent, hclass, hsubclass⟩
  · rintro ⟨hpresent, hclass, hsubclass⟩
    exact ⟨hpresent, hclass, hsubclass⟩

theorem pairwise_controllers (cfg : ConfigSpace) : (controllers cfg).Pairwise Place.Before :=
  (pairwise_present cfg).filter _

/-! ## The scan -/

def Table.add (c : CtrlInfo) (t : Table) : Table :=
  { t with ctrls := Function.update t.ctrls t.count c, count := t.count + 1 }

theorem scanFunction_eq (p : Place) (t : Table) :
    scanFunction cfg p.1 p.2.1 p.2.2 t =
      if vendorId cfg p = 0xffff then (true, t)
      else if classCode cfg p ≠ massStorage ∨ subclass cfg p ≠ sataSubclass then (true, t)
      else if t.count ≥ maxControllers then
        (false, { t with printed := "sata: controller table full\n" :: t.printed })
      else (true, t.add (ctrlInfoAt cfg p)) := by
  simp only [scanFunction, configRead16_vendorId, configRead16_deviceId, configRead8_classCode,
    configRead8_subclass, configRead8_progIf]
  rfl

/-- The loops are one loop over everything that is asked for its identification. -/
theorem scanPci_eq_visited (cfg : ConfigSpace) (t : Table) :
    scanPci cfg t = (forEach (fun p => scanFunction cfg p.1 p.2.1 p.2.2) (visited cfg)
      { t with count := 0 }).2 := by
  have hslot (bus slot : UInt8) : scanSlot cfg bus slot =
      forEach (fun func => scanFunction cfg bus slot func) (functions cfg bus slot) := by
    funext t
    simp only [scanSlot, functions, configRead16_vendorId, configRead8_headerType]
    split <;> rfl
  simp only [scanPci, visited, forEach_flatMap, forEach_map, hslot]

theorem scanPci_eq (cfg : ConfigSpace) (t : Table) :
    scanPci cfg t = (forEach (fun p => scanFunction cfg p.1 p.2.1 p.2.2) (controllers cfg)
      { t with count := 0 }).2 := by
  rw [scanPci_eq_visited, controllers, present, forEach_filter, forEach_filter]
  · rintro p - hnone t
    rw [scanFunction_eq, if_pos (not_not.mp (of_decide_eq_false hnone))]
  · rintro p - hother t
    rw [scanFunction_eq]
    split
    · rfl
    · rw [if_pos (not_and_or.mp (of_decide_eq_false hother))]

theorem scanFunction_of_isController (h : IsController cfg p) (t : Table) :
    scanFunction cfg p.1 p.2.1 p.2.2 t = if t.count ≥ maxControllers then
        (false, { t with printed := "sata: controller table full\n" :: t.printed })
      else (true, t.add (ctrlInfoAt cfg p)) := by
  obtain ⟨hpresent, hclass, hsubclass⟩ := h
  rw [scanFunction_eq, if_neg hpresent.used, if_neg]
  rintro (hne | hne)
  · exact hne hclass
  · exact hne hsubclass

theorem forEach_scanFunction {ps : List Place} (hps : ∀ p ∈ ps, IsController cfg p)
    (hcount : t.count ≤ maxControllers) :
    let t' := (forEach (fun p => scanFunction cfg p.1 p.2.1 p.2.2) ps t).2
    window t'.ctrls t'.count = window t.ctrls t.count ++
      (ps.take (maxControllers - t.count)).map (ctrlInfoAt cfg) := by
  induction ps generalizing t with
  | nil => simp [forEach]
  | cons p ps ih =>
    have hrest : ∀ q ∈ ps, IsController cfg q := fun q hq => hps q (List.mem_cons_of_mem p hq)
    rw [forEach, scanFunction_of_isController (hps p List.mem_cons_self)]
    split_ifs with hfull
    · -- The scan returns, and no more controllers are wanted.
      have hzero : maxControllers - t.count = 0 := by omega
      simp [hzero]
    · have hroom : maxControllers - t.count = maxControllers - (t.count + 1) + 1 := by omega
      have hle : (t.add (ctrlInfoAt cfg p)).count ≤ maxControllers := Nat.lt_of_not_le hfull
      have hadd : window (t.add (ctrlInfoAt cfg p)).ctrls (t.add (ctrlInfoAt cfg p)).count =
          window t.ctrls t.count ++ [ctrlInfoAt cfg p] :=
        window_update_succ t.ctrls t.count (ctrlInfoAt cfg p)
      have htail := ih hrest hle
      rw [hadd, List.append_assoc] at htail
      rw [hroom, List.take_succ_cons, List.map_cons]
      exact htail

/-- The message that the table is full comes for the first controller that has no room. -/
theorem printed_forEach_scanFunction {ps : List Place} (hps : ∀ p ∈ ps, IsController cfg p)
    (hcount : t.count ≤ maxControllers) :
    (forEach (fun p => scanFunction cfg p.1 p.2.1 p.2.2) ps t).2.printed =
      if maxControllers < t.count + ps.length then
        "sata: controller table full\n" :: t.printed
      else t.printed := by
  induction ps generalizing t with
  | nil => rw [List.length_nil, Nat.add_zero, if_neg (Nat.not_lt.mpr hcount), forEach]
  | cons p ps ih =>
    have hrest : ∀ q ∈ ps, IsController cfg q := fun q hq => hps q (List.mem_cons_of_mem p hq)
    rw [forEach, scanFunction_of_isController (hps p List.mem_cons_self), List.length_cons]
    by_cases hfull : t.count ≥ maxControllers
    · have hlong : maxControllers < t.count + (ps.length + 1) := by omega
      rw [if_pos hfull, if_pos hlong]
    · have hadd : (t.add (ctrlInfoAt cfg p)).count + ps.length = t.count + (ps.length + 1) :=
        Nat.succ_add_eq_add_succ t.count ps.length
      have htail := ih hrest (t := t.add (ctrlInfoAt cfg p)) (Nat.lt_of_not_le hfull)
      rw [hadd] at htail
      rw [if_neg hfull]
      exact htail

/-- What `pci_find_device` finds is the first function that is present and has the identification,
and the table of `sata_scan_pci` has the first sixteen controllers that are present, each once. -/
theorem findDevice_scanPci (cfg : ConfigSpace) (vendor device : UInt16) (t : Table) :
    ((findDevice cfg vendor device).isSome ↔ ∃ p, Identified cfg vendor device p) ∧
    (∀ out, findDevice cfg vendor device = some out →
      ∃ p, Identified cfg vendor device p ∧ out = deviceAt cfg p ∧
        ∀ q, Identified cfg vendor device q → q = p ∨ p.Before q) ∧
    ∃ ps : List Place, ps.Pairwise Place.Before ∧ (∀ p, p ∈ ps ↔ IsController cfg p) ∧
      (scanPci cfg t).count = min maxControllers ps.length ∧
      window (scanPci cfg t).ctrls (scanPci cfg t).count =
        (ps.take maxControllers).map (ctrlInfoAt cfg) := by
  refine ⟨findDevice_isSome cfg vendor device, fun out h => findDevice_first h, controllers cfg,
    pairwise_controllers cfg, fun p => mem_controllers, ?_⟩
  have hwindow : window (scanPci cfg t).ctrls (scanPci cfg t).count =
      ((controllers cfg).take maxControllers).map (ctrlInfoAt cfg) := by
    rw [scanPci_eq]
    exact forEach_scanFunction (fun p hp => mem_controllers.mp hp) (Nat.zero_le maxControllers)
  constructor
  · have hlength := congrArg List.length hwindow
    rwa [length_window, List.length_map, List.length_take] at hlength
  · exact hwindow

end Wnu.Sata
