import EfesOS.Fs.Journal.Record

/-!
# Mounting a FAT16 volume

`fat_mount` of `fs/fat.c` over an arbitrary one-sector read callback. The boot sector is untrusted:
every field is checked before the geometry is computed from it, and the first sector of every FAT
copy must carry the media descriptor. The address of a FAT copy is computed in 32 bits, as in the
source.

`fatMount_boot` says that a mounted volume is the one its boot sector describes,
`fatMount_preserves` that mounting does to the device no more than its reads do.
-/

set_option autoImplicit false

namespace EfesOS.Fs.Fat

open EfesOS.Foundation
open EfesOS.Fs.Journal (Sector)

universe u

abbrev fatSectorSize : ℕ := 512

/-- A mounted `struct fat_volume`. -/
structure FatVolume where
  startLba : ℕ
  totalSectors : ℕ
  fatStart : ℕ
  rootStart : ℕ
  dataStart : ℕ
  sectorsPerFat : ℕ
  fatCount : ℕ
  rootEntries : ℕ
  sectorsPerCluster : ℕ
  clusterCount : ℕ
deriving DecidableEq

/-- The fields `fat_mount` reads from the boot sector. -/
structure BootFields where
  bytesPerSector : ℕ
  sectorsPerCluster : ℕ
  reserved : ℕ
  fats : ℕ
  rootEntries : ℕ
  sectorsPerFat : ℕ
  mediaDescriptor : UInt8
  totalSectors : ℕ

def bootFields (boot : Sector) : BootFields where
  bytesPerSector := boot.readU16 11
  sectorsPerCluster := (boot.byteAt 13).toNat
  reserved := boot.readU16 14
  fats := (boot.byteAt 16).toNat
  rootEntries := boot.readU16 17
  sectorsPerFat := boot.readU16 22
  mediaDescriptor := boot.byteAt 21
  totalSectors := if boot.readU16 19 = 0 then boot.readU32 32 else boot.readU16 19

namespace BootFields

variable (fields : BootFields)

def rootSectors : ℕ := (fields.rootEntries * 32 + fatSectorSize - 1) / fatSectorSize

/-- The sectors before the cluster area. -/
def metadataSectors : ℕ :=
  fields.reserved + fields.fats * fields.sectorsPerFat + fields.rootSectors

def dataSectors : ℕ := fields.totalSectors - fields.metadataSectors

def clusterCount : ℕ := fields.dataSectors / fields.sectorsPerCluster

def fatEntryCapacity : ℕ := fields.sectorsPerFat * fatSectorSize / 2

/-- The error code of the first check that fails. -/
def check (startLba : ℕ) : Option ℕ :=
  if fields.bytesPerSector ≠ fatSectorSize ∨ fields.mediaDescriptor < 0xF0 ∨
      fields.sectorsPerCluster = 0 ∨ fields.sectorsPerCluster > 128 ∨
      fields.sectorsPerCluster &&& (fields.sectorsPerCluster - 1) ≠ 0 ∨ fields.reserved = 0 ∨
      fields.fats = 0 ∨ fields.rootEntries = 0 ∨ fields.sectorsPerFat = 0 ∨
      fields.totalSectors = 0 then some 4
  else if fields.totalSectors ≤ fields.metadataSectors then some 5
  else if fields.dataSectors = 0 ∨ fields.clusterCount < 4085 ∨ fields.clusterCount ≥ 65525 ∨
      fields.fatEntryCapacity < fields.clusterCount + 2 then some 6
  else if startLba > 18446744073709551615 - (fields.totalSectors - 1) then some 7
  else none

def volume (startLba : ℕ) : FatVolume where
  startLba := startLba
  totalSectors := fields.totalSectors
  fatStart := startLba + fields.reserved
  rootStart := startLba + fields.reserved + fields.fats * fields.sectorsPerFat
  dataStart := startLba + fields.reserved + fields.fats * fields.sectorsPerFat + fields.rootSectors
  sectorsPerFat := fields.sectorsPerFat
  fatCount := fields.fats
  rootEntries := fields.rootEntries
  sectorsPerCluster := fields.sectorsPerCluster
  clusterCount := fields.clusterCount

end BootFields

section Source

variable {σ : Type u} (read : ℕ → σ → Option Sector × σ)

/-- The loop over the FAT copies, from copy `index` on. -/
def checkFatCopies (startLba : ℕ) (fields : BootFields) : ℕ → ℕ → σ → Bool × σ
  | 0, _, state => (true, state)
  | remaining + 1, index, state =>
    let fatLba := (startLba + fields.reserved + index * fields.sectorsPerFat) % 4294967296
    match read fatLba state with
    | (none, state) => (false, state)
    | (some header, state) =>
      if header.byteAt 0 ≠ fields.mediaDescriptor ∨ header.byteAt 1 ≠ 0xFF ∨
          header.byteAt 2 ≠ 0xFF then (false, state)
      else checkFatCopies startLba fields remaining (index + 1) state

/-- The mounted volume, or the error code of the check that failed. -/
def fatMount (startLba : ℕ) (state : σ) : Except ℕ FatVolume × σ :=
  match read startLba state with
  | (none, state) => (.error 2, state)
  | (some boot, state) =>
    if boot.byteAt 510 ≠ 0x55 ∨ boot.byteAt 511 ≠ 0xAA then (.error 3, state)
    else
      let fields := bootFields boot
      match fields.check startLba with
      | some code => (.error code, state)
      | none =>
        match checkFatCopies read startLba fields fields.fats 0 state with
        | (false, state) => (.error 8, state)
        | (true, state) => (.ok (fields.volume startLba), state)

end Source

section Mount

variable {σ : Type u} {read : ℕ → σ → Option Sector × σ} {startLba : ℕ}

section

variable {property : σ → Prop} {state : σ}
  (hread : ∀ lba state, property state → property (read lba state).2)
include hread

theorem checkFatCopies_preserves (fields : BootFields) (remaining index : ℕ)
    (hstate : property state) :
    property (checkFatCopies read startLba fields remaining index state).2 := by
  induction remaining generalizing index state with
  | zero => exact hstate
  | succ remaining ih =>
    rw [checkFatCopies]
    have hnext := hread
      ((startLba + fields.reserved + index * fields.sectorsPerFat) % 4294967296) state hstate
    rcases hsector : read
      ((startLba + fields.reserved + index * fields.sectorsPerFat) % 4294967296) state with
      ⟨_ | header, after⟩
    · rw [hsector] at hnext
      simpa only [hsector] using hnext
    · rw [hsector] at hnext
      simp only
      split_ifs with hheader
      · exact hnext
      · exact ih (index + 1) hnext

/-- Mounting does to the device no more than its reads do. -/
theorem fatMount_preserves (hstate : property state) :
    property (fatMount read startLba state).2 := by
  have hboot := hread startLba state hstate
  rw [fatMount]
  rcases hsector : read startLba state with ⟨_ | boot, after⟩
  · rw [hsector] at hboot
    exact hboot
  · rw [hsector] at hboot
    simp only
    split_ifs with hsignature
    · exact hboot
    · cases (bootFields boot).check startLba with
      | some code => exact hboot
      | none =>
        have hcopies : property (checkFatCopies read startLba (bootFields boot)
            (bootFields boot).fats 0 after).2 := checkFatCopies_preserves hread _ _ _ hboot
        rcases hchecked : checkFatCopies read startLba (bootFields boot) (bootFields boot).fats 0
          after with ⟨_ | _, final⟩
        · rw [hchecked] at hcopies
          exact hcopies
        · rw [hchecked] at hcopies
          exact hcopies

end

/-- A mounted volume is the one its boot sector describes. -/
theorem fatMount_boot {state after : σ} {volume : FatVolume}
    (hmount : fatMount read startLba state = (.ok volume, after)) :
    ∃ boot : Sector, (bootFields boot).check startLba = none ∧
      volume = (bootFields boot).volume startLba := by
  rw [fatMount] at hmount
  rcases hsector : read startLba state with ⟨_ | boot, next⟩
  · rw [hsector] at hmount
    cases congrArg Prod.fst hmount
  · rw [hsector] at hmount
    simp only at hmount
    split_ifs at hmount with hsignature
    · cases congrArg Prod.fst hmount
    · cases hcheck : (bootFields boot).check startLba with
      | some code =>
        rw [hcheck] at hmount
        cases congrArg Prod.fst hmount
      | none =>
        rw [hcheck] at hmount
        rcases hchecked : checkFatCopies read startLba (bootFields boot) (bootFields boot).fats 0
          next with ⟨_ | _, final⟩
        · simp only [hchecked] at hmount
          cases congrArg Prod.fst hmount
        · simp only [hchecked] at hmount
          cases congrArg Prod.fst hmount
          exact ⟨boot, hcheck, rfl⟩

end Mount

end EfesOS.Fs.Fat
