import Mathlib.Data.List.Basic
import Mathlib.Data.Nat.Notation

/-! # The configuration space

A device is found by reading the identification of every function of every slot. The
bridge is a parameter: the word that it answers for each address. The addresses of the
kernel in memory, which drivers tell their devices about, stand here as well.
-/

namespace Wnu.Pci

/-- The addresses that the kernel is loaded at. -/
structure Bases where
  kernelVirtBase : UInt64
  kernelPhysBase : UInt64

/-- `wnu_virt_to_phys` -/
def Bases.virtToPhys (b : Bases) (virt : UInt64) : UInt64 :=
  virt - b.kernelVirtBase + b.kernelPhysBase

/-- What is read from the data port after an address has been written to the address port. -/
abbrev ConfigSpace := UInt32 → UInt32

/-- `struct pci_device` -/
structure Device where
  bus : UInt8
  slot : UInt8
  func : UInt8
  vendorId : UInt16
  deviceId : UInt16
  classCode : UInt8
  subclass : UInt8
  progIf : UInt8
  deriving DecidableEq

variable (cfg : ConfigSpace) (bus slot func offset : UInt8)

/-- `pci_config_read32` -/
def configRead32 : UInt32 :=
  let address := ((1 : UInt32) <<< 31) ||| (bus.toUInt32 <<< 16) ||| (slot.toUInt32 <<< 11) |||
    (func.toUInt32 <<< 8) ||| (offset.toUInt32 &&& 0xfc)
  cfg address

/-- `pci_config_read16` -/
def configRead16 : UInt16 :=
  let value := configRead32 cfg bus slot func offset
  ((value >>> ((offset.toUInt32 &&& 2) * 8)) &&& 0xffff).toUInt16

/-- `pci_config_read8` -/
def configRead8 : UInt8 :=
  let value := configRead32 cfg bus slot func offset
  ((value >>> ((offset.toUInt32 &&& 3) * 8)) &&& 0xff).toUInt8

def bytesBelow (n : ℕ) : List UInt8 := (List.range n).map UInt8.ofNat

def matchFunction (vendor device : UInt16) : Option Device :=
  let vendorId := configRead16 cfg bus slot func 0x00
  if vendorId = 0xffff then none
  else
    let deviceId := configRead16 cfg bus slot func 0x02
    if vendorId = vendor ∧ deviceId = device then
      some
        { bus, slot, func, vendorId, deviceId
          classCode := configRead8 cfg bus slot func 0x0b
          subclass := configRead8 cfg bus slot func 0x0a
          progIf := configRead8 cfg bus slot func 0x09 }
    else none

def matchSlot (vendor device : UInt16) : Option Device :=
  if configRead16 cfg bus slot 0 0x00 = 0xffff then none
  else
    let headerType := configRead8 cfg bus slot 0 0x0e
    let functionCount := if headerType &&& 0x80 ≠ 0 then 8 else 1
    (bytesBelow functionCount).findSome? fun func => matchFunction cfg bus slot func vendor device

/-- `pci_find_device` -/
def findDevice (vendor device : UInt16) : Option Device :=
  (bytesBelow 256).findSome? fun bus =>
    (bytesBelow 32).findSome? fun slot => matchSlot cfg bus slot vendor device

end Wnu.Pci
