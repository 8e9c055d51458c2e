import EfesOS.Fs.Journal.Record

/-!
# Block devices

`drivers/block_device.c`: the record a driver fills in for its device and the request checks every
access goes through. The read callback is a parameter of `blockDeviceRead`; the record only says
whether there is one.
-/

set_option autoImplicit false

namespace EfesOS.Drivers

open EfesOS.Foundation
open EfesOS.Fs.Journal (Sector)

universe u

abbrev blockDeviceMagic : ℕ := 0x424C4B44
abbrev blockDeviceSectorSize : ℕ := 512
abbrev blockDeviceTransferMax : ℕ := 128

/-- `struct block_device`, with whether the callbacks are set in place of the callbacks. -/
structure BlockDevice where
  magic : ℕ
  sectorCount : ℕ
  sectorSize : ℕ
  maxTransferSectors : ℕ
  hasRead : Bool
  hasWrite : Bool
deriving DecidableEq

def blockDeviceReset : BlockDevice := ⟨0, 0, 0, 0, false, false⟩

def blockDeviceConfigure (sectorCount sectorSize maxTransferSectors : ℕ)
    (hasRead hasWrite : Bool) : Bool × BlockDevice :=
  if sectorCount = 0 ∨ sectorSize ≠ blockDeviceSectorSize ∨ maxTransferSectors = 0 ∨
      maxTransferSectors > blockDeviceTransferMax ∨ ¬hasRead then (false, blockDeviceReset)
  else (true, ⟨blockDeviceMagic, sectorCount, sectorSize, maxTransferSectors, hasRead, hasWrite⟩)

def blockDeviceIsReady (device : Option BlockDevice) : Bool :=
  match device with
  | none => false
  | some device =>
    device.magic = blockDeviceMagic ∧ device.sectorCount ≠ 0 ∧
      device.sectorSize = blockDeviceSectorSize ∧ device.maxTransferSectors ≠ 0 ∧
      device.maxTransferSectors ≤ blockDeviceTransferMax ∧ device.hasRead

def blockDeviceSectorCount (device : Option BlockDevice) : ℕ :=
  match device with
  | none => 0
  | some record => if blockDeviceIsReady device then record.sectorCount else 0

def requestIsValid (device : Option BlockDevice) (lba count : ℕ) : Bool :=
  match device with
  | none => false
  | some record =>
    blockDeviceIsReady device ∧ count ≠ 0 ∧ count ≤ record.maxTransferSectors ∧
      lba < record.sectorCount ∧ count ≤ record.sectorCount - lba

/-- Reads `count` sectors through the callback of the driver. -/
def blockDeviceRead {σ : Type u} (read : ℕ → ℕ → σ → Option (List Sector) × σ)
    (device : Option BlockDevice) (lba count : ℕ) (state : σ) : Option (List Sector) × σ :=
  if ¬requestIsValid device lba count then (none, state) else read lba count state

end EfesOS.Drivers
