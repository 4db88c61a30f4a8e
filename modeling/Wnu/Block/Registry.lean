import Mathlib.Data.List.ReduceOption
import Wnu.Lib.Compare
import Wnu.Runs.Projection
import Wnu.Vfs.Contents

/-! # The registry of block devices

A device is registered in the first free slot, and a file under `/dev` stands for it. The
devices are found in the order in which they were registered, whatever the file system
made of their files.
-/

namespace Wnu.Block

open Lib Memory Text Vfs Runs

/-- `MAX_BLOCK_DEV` -/
abbrev maxBlockDev : ℕ := 8

/-- `devices`, and the file system that a registration writes to. -/
structure Registry where
  devices : Devices
  vfs : Table

/-- The loop that copies the name of a device behind `/dev/`, as long as the path has room. -/
def appendName (path : List UInt8) : List UInt8 → List UInt8
  | [] => path
  | c :: name =>
    if path.length + 1 < maxName then
      if c = 0 then path else appendName (path ++ [c]) name
    else path

/-- `path` in `wnu_block_register`. -/
def devicePath (dev : BlockDevice) : List UInt8 :=
  appendName (ascii "/dev/") dev.name.toList ++ [0]

/-- What `wnu_block_register` does to the file system. -/
def createDeviceFile (dev : BlockDevice) (t : Table) : Table :=
  let t := if !exists' t (ascii "/dev") then (createDir t (ascii "/dev")).2 else t
  let (created, t) := createFile t (devicePath dev)
  if created then (writeFile t (devicePath dev) (some (literal "block device")) 12).2 else t

/-- `wnu_block_register` -/
def blockRegister (r : Registry) (dev : BlockDevice) : Bool × Registry :=
  match r.devices.toList.findIdx? (· = none) with
  | none => (false, r)
  | some i =>
    (true, ⟨r.devices.setIfInBounds i (some dev), createDeviceFile dev r.vfs⟩)

/-- `devices` before any device is registered. -/
def noDevices : Devices := Vector.replicate maxBlockDev none

/-- The used slots are the first ones, and hold these devices in their order. -/
structure Holds (devices : Devices) (devs : List BlockDevice) : Prop where
  slots : devices.toList = devs.map some ++ List.replicate (maxBlockDev - devs.length) none
  length_le : devs.length ≤ maxBlockDev

variable {devices : Devices} {devs : List BlockDevice} {dev : BlockDevice} {r : Registry}

theorem holds_noDevices : Holds noDevices [] where
  slots := rfl
  length_le := Nat.zero_le _

theorem Holds.reduceOption (h : Holds devices devs) : devices.toList.reduceOption = devs := by
  rw [h.slots, List.reduceOption_append]
  simp [List.reduceOption]

theorem Holds.findIdx? (h : Holds devices devs) :
    devices.toList.findIdx? (· = none) =
      if devs.length < maxBlockDev then some devs.length else none := by
  have hused : (devs.map some).findIdx? (· = none) = none := by simp
  have hle := h.length_le
  rw [h.slots, List.findIdx?_append, hused, Option.none_or, List.length_map]
  split
  · rename_i hlt
    obtain ⟨k, hk⟩ : ∃ k, maxBlockDev - devs.length = k + 1 :=
      ⟨maxBlockDev - devs.length - 1, by omega⟩
    rw [hk, List.replicate_succ, List.findIdx?_cons]
    simp
  · rename_i hfull
    have hk : maxBlockDev - devs.length = 0 := by omega
    rw [hk]
    rfl

theorem Holds.register (h : Holds devices devs) (hlt : devs.length < maxBlockDev)
    (dev : BlockDevice) :
    Holds (devices.setIfInBounds devs.length (some dev)) (devs ++ [dev]) where
  slots := by
    obtain ⟨k, hk⟩ : ∃ k, maxBlockDev - devs.length = k + 1 :=
      ⟨maxBlockDev - devs.length - 1, by omega⟩
    have hk' : maxBlockDev - (devs ++ [dev]).length = k := by
      rw [List.length_append, List.length_singleton]
      omega
    have hset : (devs.map some ++ List.replicate (k + 1) none).set devs.length (some dev) =
        devs.map some ++ (List.replicate (k + 1) none).set 0 (some dev) := by
      rw [List.set_append_right _ _ (by simp), List.length_map, Nat.sub_self]
    rw [Vector.toList_setIfInBounds, h.slots, hk, hset, hk', List.replicate_succ,
      List.set_cons_zero, List.map_append]
    simp
  length_le := by
    rw [List.length_append, List.length_singleton]
    exact hlt

theorem Holds.blockRegister (h : Holds r.devices devs) (dev : BlockDevice) :
    (blockRegister r dev).1 = decide (devs.length < maxBlockDev) ∧
      Holds (blockRegister r dev).2.devices ((devs ++ [dev]).take maxBlockDev) ∧
      (blockRegister r dev).2.vfs =
        if devs.length < maxBlockDev then createDeviceFile dev r.vfs else r.vfs := by
  have hle := h.length_le
  rw [Block.blockRegister, h.findIdx?]
  by_cases hlt : devs.length < maxBlockDev
  · rw [if_pos hlt, if_pos hlt]
    have htake : (devs ++ [dev]).take maxBlockDev = devs ++ [dev] :=
      List.take_of_length_le (by rw [List.length_append, List.length_singleton]; omega)
    rw [htake]
    exact ⟨(decide_eq_true hlt).symm, h.register hlt dev, rfl⟩
  · rw [if_neg hlt, if_neg hlt]
    have htake : (devs ++ [dev]).take maxBlockDev = devs := by
      rw [List.take_append_of_le_length (by omega), List.take_of_length_le hle]
    rw [htake]
    exact ⟨(decide_eq_false hlt).symm, h, rfl⟩

theorem Holds.run (h : Holds r.devices devs) (more : List BlockDevice) :
    Holds (run Block.blockRegister r more).devices ((devs ++ more).take maxBlockDev) := by
  induction more generalizing r devs with
  | nil =>
    rw [List.append_nil, List.take_of_length_le h.length_le]
    exact h
  | cons dev more ih =>
    have hrest := ih (h.blockRegister dev).2.1
    have htake : ((devs ++ [dev]).take maxBlockDev ++ more).take maxBlockDev =
        (devs ++ dev :: more).take maxBlockDev := by
      have hroom : maxBlockDev - min maxBlockDev (devs ++ [dev]).length =
          maxBlockDev - (devs ++ [dev]).length := by omega
      rw [List.take_append, List.take_take, Nat.min_self, List.length_take, hroom,
        ← List.take_append, List.append_assoc, List.singleton_append]
    rwa [htake] at hrest

/-! ## Finding devices -/

/-- The name that `wnu_block_find` compares with. -/
def lookupName (name : List UInt8) : List UInt8 :=
  if name.take 5 = ascii "/dev/" then name.drop 5 else name

theorem Holds.blockFind (h : Holds devices devs) (name : List UInt8) :
    blockFind devices name =
      devs.find? fun dev => text dev.name.toList = (text (lookupName name)).take 32 := by
  have hname (dev : BlockDevice) : (text dev.name.toList).take 32 = text dev.name.toList := by
    apply List.take_of_length_le
    exact (prefix_text _).length_le.trans (by simp)
  rw [Block.blockFind, h.reduceOption]
  congr 1
  funext dev
  apply decide_eq_decide.mpr
  rw [strncmp_eq_zero_iff, hname]
  rfl

/-- Whatever devices are registered, in whatever order and number: the first eight registrations
succeed and the others fail, and a name finds the earliest device that has succeeded with it. -/
theorem blockFind_registered (vfs : Table) (devs : List BlockDevice) (name : List UInt8) :
    (trace blockRegister ⟨noDevices, vfs⟩ devs).map (fun step => step.2.2) =
        (List.range devs.length).map (fun i => decide (i < maxBlockDev)) ∧
      blockFind (run blockRegister ⟨noDevices, vfs⟩ devs).devices name =
        (devs.take maxBlockDev).find? fun dev =>
          text dev.name.toList = (text (lookupName name)).take 32 := by
  have hstart : Holds (Registry.mk noDevices vfs).devices [] := holds_noDevices
  constructor
  · have hresults (more : List BlockDevice) {r : Registry} {devs : List BlockDevice} {n : ℕ}
        (h : Holds r.devices devs) (hn : devs.length = min n maxBlockDev) :
        (trace blockRegister r more).map (fun step => step.2.2) =
          (List.range more.length).map (fun i => decide (n + i < maxBlockDev)) := by
      induction more generalizing r devs n with
      | nil => rfl
      | cons dev more ih =>
        obtain ⟨hresult, hnext, -⟩ := h.blockRegister dev
        have hlength : ((devs ++ [dev]).take maxBlockDev).length = min (n + 1) maxBlockDev := by
          rw [List.length_take, List.length_append, List.length_singleton, hn]
          omega
        have hroom : devs.length < maxBlockDev ↔ n + 0 < maxBlockDev := by
          rw [hn]
          omega
        rw [trace_cons, List.map_cons, ih hnext hlength, hresult, List.length_cons,
          List.range_succ_eq_map, List.map_cons, List.map_map]
        simp only [hroom, Function.comp_def, Nat.succ_eq_add_one, Nat.add_assoc, Nat.add_comm 1]
    have h := hresults devs hstart (n := 0) rfl
    simp only [Nat.zero_add] at h
    exact h
  · have h := hstart.run devs
    rw [List.nil_append] at h
    exact h.blockFind name

end Wnu.Block
