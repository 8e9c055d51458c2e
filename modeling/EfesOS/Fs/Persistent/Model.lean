import EfesOS.Drivers.Ata
import EfesOS.Fs.Journal.Log
import EfesOS.Fs.Ramfs
import EfesOS.Fs.Vfs

/-!
# The persistent RAM filesystem

`fs/persistent.c`: the RAM filesystem backed by a journal in the last 65 sectors of the ATA drive.
`persistentRamfsInit` replays a journal that is there, `persistentRamfsFormat` makes an empty one,
and `persistentRamfsWriteFile` and `persistentRamfsRemoveFile` append a record and then apply it.

The state is that of all files involved: the ATA driver, the mounted volume, the RAM filesystem and
the statics of `persistent.c`. The result of a call that panics is `none`.
-/

set_option autoImplicit false

namespace EfesOS.Fs.Persistent

open EfesOS.Foundation EfesOS.Drivers EfesOS.Fs.Journal EfesOS.Fs.Ramfs EfesOS.Fs.Vfs

abbrev persistentJournalRegionSectors : ℕ := 65

/-- The statics of `persistent.c`. -/
structure PersistentState where
  enabled : Bool
  regionStart : ℕ
  nextSequence : UInt32
  replayRecords : ℕ

structure Machine where
  ata : Ata
  vfs : VfsState
  store : Store
  persistent : PersistentState

/-! ### The source functions -/

def buildEntry (request : JournalRequest) : Option JournalEntry :=
  (journalEncode request).bind journalDecode

/-- The sequence after this one; zero once the sequence space is exhausted. -/
def advanceSequence (sequence : UInt32) : UInt32 :=
  if sequence = 0xFFFFFFFF then 0 else sequence + 1

/-- The drive is there and longer than a journal region. -/
def regionExists (ata : Ata) : Bool :=
  ata.devicePresent ∧ persistentJournalRegionSectors < ata.sectors

/-- The first of the last 65 sectors. -/
def tailStart (ata : Ata) : ℕ := ata.sectors - persistentJournalRegionSectors

def regionAvailable (machine : Machine) : Bool :=
  vfsJournalRegionAvailable machine.vfs machine.persistent.regionStart
    persistentJournalRegionSectors

/-- The part of `persistent_ramfs_init` after the superblock was decoded. -/
def replayRegion (machine : Machine) : Bool × Machine :=
  let start := machine.persistent.regionStart
  match journalReplay ataCallbacks ramfsApplyJournalEntry start persistentJournalRegionSectors
      machine.ata machine.store with
  | (none, ata, store) => (false, { machine with ata := ata, store := store })
  | (some applied, ata, store) =>
    match journalNextSequence ataCallbacks start persistentJournalRegionSectors ata with
    | (none, ata) =>
      -- An exhausted sequence space leaves the log readable.
      (true, { machine with
        ata := ata
        store := store
        persistent := ⟨false, start, 0, applied⟩ })
    | (some sequence, ata) =>
      match ataEnableTransactionalWrites start persistentJournalRegionSectors ata with
      | (enabled, ata) =>
        (enabled, { machine with
          ata := ata
          store := store
          persistent := ⟨enabled, start, UInt32.ofNat sequence, applied⟩ })

/-- The part of `persistent_ramfs_init` that looks for a superblock in the journal region. -/
def probeRegion (machine : Machine) : Bool × Machine :=
  if ¬regionAvailable machine then (true, machine)
  else
    match ataCallbacks.read machine.persistent.regionStart machine.ata with
    | (none, ata) => (true, { machine with ata := ata })
    | (some superblock, ata) =>
      match journalSuperblockDecode superblock with
      | none =>
        -- No formatted journal is a supported volatile mode.
        (true, { machine with ata := ata })
      | some dataSectors =>
        if dataSectors + 1 > persistentJournalRegionSectors then
          (false, { machine with ata := ata })
        else replayRegion { machine with ata := ata }

/-- The system once `persistent_ramfs_init` has reset it and located the region. -/
def closed (machine : Machine) : Machine :=
  { machine with
    ata := ataDisableTransactionalWrites machine.ata
    persistent := ⟨false, tailStart machine.ata, 0, 0⟩ }

def persistentRamfsInit (machine : Machine) : Bool × Machine :=
  if ¬regionExists machine.ata then
    (true, { machine with
      ata := ataDisableTransactionalWrites machine.ata
      persistent := ⟨false, 0, 0, 0⟩ })
  else probeRegion (closed machine)

/-- The part of `persistent_ramfs_format` after the geometry checks. The caller's `allocated` is
whether the heap had room for the preflight buffer. -/
def formatRegion (allocated : Bool) (machine : Machine) : Bool × Machine :=
  let start := machine.persistent.regionStart
  if ¬allocated then (false, machine)
  else
    match ataReadSectors start persistentJournalRegionSectors machine.ata with
    | (none, ata) => (false, { machine with ata := ata })
    | (some buffer, ata) =>
      if ¬buffer.all sectorIsEmpty then (false, { machine with ata := ata })
      else
        match journalSuperblockEncode (persistentJournalRegionSectors - 1) with
        | none => (false, { machine with ata := ataDisableTransactionalWrites ata })
        | some superblock =>
          match ataEnableTransactionalWrites start persistentJournalRegionSectors ata with
          | (false, ata) => (false, { machine with ata := ataDisableTransactionalWrites ata })
          | (true, ata) =>
            match ataCallbacks.write start superblock ata with
            | (false, ata) => (false, { machine with ata := ataDisableTransactionalWrites ata })
            | (true, ata) =>
              match ataCallbacks.read start ata with
              | (none, ata) => (false, { machine with ata := ataDisableTransactionalWrites ata })
              | (some sector, ata) =>
                if (journalSuperblockDecode sector).isNone then
                  (false, { machine with ata := ataDisableTransactionalWrites ata })
                else (true, { machine with ata := ata, persistent := ⟨true, start, 1, 0⟩ })

/-- Sets `persistent_region_start`. -/
def locateRegion (machine : Machine) : Machine :=
  { machine with persistent := { machine.persistent with regionStart := tailStart machine.ata } }

def persistentRamfsFormat (allocated : Bool) (machine : Machine) : Bool × Machine :=
  if machine.persistent.enabled ∨ ¬ramfsIsPristine machine.store ∨ ¬regionExists machine.ata then
    (false, machine)
  else if ¬regionAvailable (locateRegion machine) then (false, locateRegion machine)
  else formatRegion allocated (locateRegion machine)

/-- Appends the record of a request and applies its entry: the common end of a persistent write and
a persistent remove. -/
def commitEntry (request : JournalRequest) (entry : JournalEntry) (machine : Machine) :
    Option Bool × Machine :=
  match journalAppend ataCallbacks machine.persistent.regionStart
    persistentJournalRegionSectors request
      machine.ata with
  | (false, ata) => (some false, { machine with ata := ata })
  | (true, ata) =>
    match ramfsApplyJournalEntry entry machine.store with
    | (false, store) => (none, { machine with ata := ata, store := store })
    | (true, store) =>
      let next := advanceSequence machine.persistent.nextSequence
      (some (next ≠ 0 ∨ next = 0), { machine with
        ata := ata
        store := store
        persistent := { machine.persistent with nextSequence := next } })

/-- The record a persistent write appends. -/
def writeRequest (sequence : UInt32) (name contents : Pointer) (contentLength : ℕ) :
    JournalRequest :=
  ⟨journalOperationWrite, sequence.toNat, name, contents, contentLength, sequence.toNat_lt⟩

/-- The record a persistent remove appends. -/
def removeRequest (sequence : UInt32) (name : Pointer) : JournalRequest :=
  ⟨journalOperationRemove, sequence.toNat, name, none, 0, sequence.toNat_lt⟩

def persistentRamfsWriteFile (name contents : Pointer) (machine : Machine) :
    Option Bool × Machine :=
  if ¬machine.persistent.enabled ∨ machine.persistent.nextSequence = 0 then (some false, machine)
  else
    match ramfsCanWriteFile machine.store name contents with
    | none => (some false, machine)
    | some contentLength =>
      let request := writeRequest machine.persistent.nextSequence name contents contentLength
      match buildEntry request with
      | none => (some false, machine)
      | some entry => commitEntry request entry machine

def persistentRamfsRemoveFile (name : Pointer) (machine : Machine) : Option Bool × Machine :=
  if ¬machine.persistent.enabled ∨ machine.persistent.nextSequence = 0 ∨
      ramfsFileContents machine.store name = none then (some false, machine)
  else
    let request := removeRequest machine.persistent.nextSequence name
    match buildEntry request with
    | none => (some false, machine)
    | some entry => commitEntry request entry machine

end EfesOS.Fs.Persistent
