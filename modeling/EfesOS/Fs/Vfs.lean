import EfesOS.Drivers.BlockDevice
import EfesOS.Fs.Fat

/-!
# The mounted volume and the journal region

The parts of `fs/vfs.c` that decide where the journal may live: `vfsInit` looks for a FAT volume at
the start of the device and in its four partition entries, and `vfsJournalRegionAvailable` tests a
region against the device and the mounted volume.

`vfsInit_fits` says that a mounted volume lies on the device, `vfsInit_preserves` that the search
does to the device no more than its reads do, and `vfsJournalRegionAvailable_iff` what an available
region is.
-/

set_option autoImplicit false

namespace EfesOS.Fs.Vfs

open EfesOS.Foundation EfesOS.Drivers EfesOS.Fs.Fat
open EfesOS.Fs.Journal (Sector)

universe u

abbrev ataReadRetries : ℕ := 3

/-- The static state of the file: the mounted volume, `none` while `volume.mounted` is zero, and
the device behind it. -/
structure VfsState where
  volume : Option FatVolume
  storageDevice : Option BlockDevice

section Source

variable {σ : Type u} (blockRead : ℕ → ℕ → σ → Option (List Sector) × σ)

/-- The retry loop of a one-sector read, with `attempts` attempts left. -/
def readWithRetry (device : Option BlockDevice) (lba : ℕ) : ℕ → σ → Option Sector × σ
  | 0, state => (none, state)
  | attempts + 1, state =>
    match blockDeviceRead blockRead device lba 1 state with
    | (some (sector :: _), state) => (some sector, state)
    | (_, state) => readWithRetry device lba attempts state

/-- The read callback that a volume is mounted with. -/
def volumeRead (device : Option BlockDevice) (lba : ℕ) (state : σ) : Option Sector × σ :=
  readWithRetry blockRead device lba ataReadRetries state

def mountedVolumeFitsDevice (device : Option BlockDevice) (volume : FatVolume) : Bool :=
  volume.startLba < blockDeviceSectorCount device ∧ volume.totalSectors ≠ 0 ∧
    volume.totalSectors ≤ blockDeviceSectorCount device - volume.startLba

/-- Mounts a volume at an address and keeps it only if it fits the device. -/
def mountAt (device : Option BlockDevice) (startLba : ℕ) (state : σ) : Option FatVolume × σ :=
  match fatMount (volumeRead blockRead device) startLba state with
  | (.error _, state) => (none, state)
  | (.ok volume, state) =>
    (if mountedVolumeFitsDevice device volume then some volume else none, state)

/-- The loop over the partition entries, from entry `index` on. -/
def mountPartitions (device : Option BlockDevice) (mbr : Sector) :
    ℕ → ℕ → σ → Option FatVolume × σ
  | 0, _, state => (none, state)
  | remaining + 1, index, state =>
    let partition := 446 + index * 16
    let type := mbr.byteAt (partition + 4)
    let start := mbr.readU32 (partition + 8)
    let length := mbr.readU32 (partition + 12)
    let sectors := blockDeviceSectorCount device
    if (type = 0x04 ∨ type = 0x06 ∨ type = 0x0E) ∧ length ≠ 0 ∧ start < sectors ∧
        length ≤ sectors - start then
      match mountAt blockRead device start state with
      | (some volume, state) => (some volume, state)
      | (none, state) => mountPartitions device mbr remaining (index + 1) state
    else mountPartitions device mbr remaining (index + 1) state

def vfsInit (device : Option BlockDevice) (state : σ) : VfsState × σ :=
  if ¬blockDeviceIsReady device then (⟨none, none⟩, state)
  else
    match mountAt blockRead device 0 state with
    | (some volume, state) => (⟨some volume, device⟩, state)
    | (none, state) =>
      match volumeRead blockRead device 0 state with
      | (none, state) => (⟨none, device⟩, state)
      | (some mbr, state) =>
        if mbr.byteAt 510 ≠ 0x55 ∨ mbr.byteAt 511 ≠ 0xAA then (⟨none, device⟩, state)
        else
          match mountPartitions blockRead device mbr 4 0 state with
          | (volume, state) => (⟨volume, device⟩, state)

end Source

def vfsJournalRegionAvailable (vfs : VfsState) (startLba sectorCount : ℕ) : Bool :=
  let deviceSectors := blockDeviceSectorCount vfs.storageDevice
  if sectorCount = 0 ∨ deviceSectors = 0 ∨ startLba ≥ deviceSectors ∨
      sectorCount > deviceSectors - startLba then false
  else
    match vfs.volume with
    | none => true
    | some volume =>
      startLba ≥ volume.startLba + volume.totalSectors ∨ startLba + sectorCount ≤ volume.startLba

/-- The volume lies on a device of this many sectors. -/
def VolumeFits (volume : FatVolume) (sectors : ℕ) : Prop :=
  0 < volume.totalSectors ∧ volume.startLba + volume.totalSectors ≤ sectors

/-- An available region lies on the device and outside the mounted volume. -/
theorem vfsJournalRegionAvailable_iff (vfs : VfsState) (startLba sectorCount : ℕ) :
    vfsJournalRegionAvailable vfs startLba sectorCount = true ↔
      0 < sectorCount ∧ startLba + sectorCount ≤ blockDeviceSectorCount vfs.storageDevice ∧
        ∀ volume, vfs.volume = some volume →
          volume.startLba + volume.totalSectors ≤ startLba ∨
            startLba + sectorCount ≤ volume.startLba := by
  unfold vfsJournalRegionAvailable
  simp only
  split_ifs with hregion
  · simp only [false_iff, not_and]
    intro hpositive hfits
    omega
  · have hbounds : 0 < sectorCount ∧
        startLba + sectorCount ≤ blockDeviceSectorCount vfs.storageDevice := by omega
    cases vfs.volume with
    | none => simpa using hbounds
    | some volume => simp [hbounds]

section Init

variable {σ : Type u} {blockRead : ℕ → ℕ → σ → Option (List Sector) × σ}
  {device : Option BlockDevice} {property : σ → Prop}

section

variable {state : σ}
  (hread : ∀ lba count state, property state → property (blockRead lba count state).2)
include hread

theorem readWithRetry_preserves (lba attempts : ℕ) (hstate : property state) :
    property (readWithRetry blockRead device lba attempts state).2 := by
  induction attempts generalizing state with
  | zero => exact hstate
  | succ attempts ih =>
    have hnext : property (blockDeviceRead blockRead device lba 1 state).2 := by
      rw [blockDeviceRead]
      split_ifs
      · exact hread lba 1 state hstate
      · exact hstate
    rw [readWithRetry]
    rcases hresult :
      blockDeviceRead blockRead device lba 1 state with ⟨_ | _ | ⟨sector, rest⟩, after⟩
    · rw [hresult] at hnext
      exact ih hnext
    · rw [hresult] at hnext
      exact ih hnext
    · rw [hresult] at hnext
      exact hnext

theorem mountAt_preserves (startLba : ℕ) (hstate : property state) :
    property (mountAt blockRead device startLba state).2 := by
  have hmount : property (fatMount (volumeRead blockRead device) startLba state).2 :=
    fatMount_preserves (fun lba _ h ↦ readWithRetry_preserves hread lba _ h) hstate
  rw [mountAt]
  rcases hresult : fatMount (volumeRead blockRead device) startLba state with ⟨_ | _, after⟩
  · rw [hresult] at hmount
    exact hmount
  · rw [hresult] at hmount
    exact hmount

end

/-- A volume that stays mounted lies on the device. -/
theorem mountAt_fits {startLba : ℕ} {state after : σ} {volume : FatVolume}
    (hmount : mountAt blockRead device startLba state = (some volume, after)) :
    VolumeFits volume (blockDeviceSectorCount device) := by
  rw [mountAt] at hmount
  rcases hresult : fatMount (volumeRead blockRead device) startLba state with ⟨_ | found, next⟩
  · rw [hresult] at hmount
    cases congrArg Prod.fst hmount
  · rw [hresult] at hmount
    have hfits : (if mountedVolumeFitsDevice device found then some found else none) =
        some volume := congrArg Prod.fst hmount
    rw [Option.ite_none_right_eq_some] at hfits
    obtain ⟨hfits, heq⟩ := hfits
    obtain rfl := Option.some.inj heq
    simp only [mountedVolumeFitsDevice, decide_eq_true_eq] at hfits
    exact ⟨by omega, by omega⟩

theorem mountPartitions_preserves
    (hread : ∀ lba count state, property state → property (blockRead lba count state).2)
    (mbr : Sector) (remaining index : ℕ) {state : σ} (hstate : property state) :
    property (mountPartitions blockRead device mbr remaining index state).2 := by
  induction remaining generalizing index state with
  | zero => exact hstate
  | succ remaining ih =>
    rw [mountPartitions]
    split_ifs with hpartition
    · have hmount : property
          (mountAt blockRead device (mbr.readU32 (446 + index * 16 + 8)) state).2 :=
        mountAt_preserves hread _ hstate
      rcases hresult : mountAt blockRead device (mbr.readU32 (446 + index * 16 + 8)) state with
        ⟨_ | volume, after⟩
      · rw [hresult] at hmount
        exact ih (index + 1) hmount
      · rw [hresult] at hmount
        exact hmount
    · exact ih (index + 1) hstate

theorem mountPartitions_fits (mbr : Sector) (remaining index : ℕ) {state after : σ}
    {volume : FatVolume}
    (hmount : mountPartitions blockRead device mbr remaining index state = (some volume, after)) :
    VolumeFits volume (blockDeviceSectorCount device) := by
  induction remaining generalizing index state with
  | zero => cases congrArg Prod.fst hmount
  | succ remaining ih =>
    rw [mountPartitions] at hmount
    split_ifs at hmount with hpartition
    · rcases hresult : mountAt blockRead device (mbr.readU32 (446 + index * 16 + 8)) state with
        ⟨_ | found, next⟩
      · rw [hresult] at hmount
        exact ih (index + 1) hmount
      · rw [hresult] at hmount
        obtain rfl : found = volume := Option.some.inj (congrArg Prod.fst hmount)
        exact mountAt_fits hresult
    · exact ih (index + 1) hmount

/-- What `vfs_init` leaves: no device at all, or the device and at most a volume that lies on it. -/
theorem vfsInit_fits (state : σ) :
    (vfsInit blockRead device state).1 = ⟨none, none⟩ ∨
      (vfsInit blockRead device state).1.storageDevice = device ∧
      ∀ volume, (vfsInit blockRead device state).1.volume = some volume →
        VolumeFits volume (blockDeviceSectorCount device) := by
  have hnone : ∀ volume, (none : Option FatVolume) = some volume →
      VolumeFits volume (blockDeviceSectorCount device) := fun _ h ↦ nomatch h
  rw [vfsInit]
  by_cases hready : ¬blockDeviceIsReady device
  · rw [if_pos hready]
    exact Or.inl rfl
  rw [if_neg hready]
  refine Or.inr ?_
  rcases hwhole : mountAt blockRead device 0 state with ⟨_ | whole, first⟩
  · dsimp only
    rcases hmbr : volumeRead blockRead device 0 first with ⟨_ | mbr, second⟩
    · exact ⟨rfl, hnone⟩
    · dsimp only
      split_ifs with hsignature
      · exact ⟨rfl, fun _ hfalse ↦ hfalse.elim⟩
      · rcases hpartition : mountPartitions blockRead device mbr 4 0 second with
          ⟨_ | found, third⟩
        · exact ⟨rfl, hnone⟩
        · refine ⟨rfl, fun volume hvolume ↦ ?_⟩
          obtain rfl := Option.some.inj hvolume
          exact mountPartitions_fits mbr 4 0 hpartition
  · refine ⟨rfl, fun volume hvolume ↦ ?_⟩
    obtain rfl := Option.some.inj hvolume
    exact mountAt_fits hwhole

/-- Looking for a volume does to the device no more than its reads do. -/
theorem vfsInit_preserves
    (hread : ∀ lba count state, property state → property (blockRead lba count state).2)
    {state : σ} (hstate : property state) : property (vfsInit blockRead device state).2 := by
  rw [vfsInit]
  by_cases hready : ¬blockDeviceIsReady device
  · rw [if_pos hready]
    exact hstate
  rw [if_neg hready]
  have hfirst : property (mountAt blockRead device 0 state).2 := mountAt_preserves hread 0 hstate
  rcases hwhole : mountAt blockRead device 0 state with ⟨_ | whole, first⟩
  · rw [hwhole] at hfirst
    dsimp only
    have hsecond : property (volumeRead blockRead device 0 first).2 :=
      readWithRetry_preserves hread 0 ataReadRetries hfirst
    rcases hmbr : volumeRead blockRead device 0 first with ⟨_ | mbr, second⟩
    · rw [hmbr] at hsecond
      exact hsecond
    · rw [hmbr] at hsecond
      dsimp only
      split_ifs with hsignature
      · exact hsecond
      · exact mountPartitions_preserves hread mbr 4 0 hsecond
  · rw [hwhole] at hfirst
    exact hfirst

end Init

end EfesOS.Fs.Vfs
