import EfesOS.Fs.Persistent.Model

/-!
# The journal region at boot

What `persistent_ramfs_init` finds in the last 65 sectors of the drive and what it leaves behind.
`RegionReady` is what the checks before the superblock establish, and `Durable` adds the journal
the region holds.

`persistentRamfsInit_settles` covers every boot, with any read failing: writes are protected
afterwards, or the region holds a journal and the write window is open on exactly that region.
`persistentRamfsInit_of_durable` is the boot of a system with a journal on a drive without faults.
-/

set_option autoImplicit false

namespace EfesOS.Fs.Persistent

open EfesOS.Foundation EfesOS.Drivers EfesOS.Fs.Journal EfesOS.Fs.Ramfs EfesOS.Fs.Vfs

/-- The drive has a journal region at its end, outside the mounted volume. -/
structure RegionReady (machine : Machine) : Prop where
  wellFormed : machine.ata.WellFormed
  present : machine.ata.devicePresent = true
  large : persistentJournalRegionSectors < machine.ata.sectors
  available : vfsJournalRegionAvailable machine.vfs (tailStart machine.ata)
    persistentJournalRegionSectors = true

/-- The region holds a journal with these records. -/
structure Durable (machine : Machine) (dataSectors : ℕ) (records : List JournalEntry) : Prop
    extends RegionReady machine where
  holds : HoldsJournal machine.ata.drive.disk (tailStart machine.ata)
    persistentJournalRegionSectors dataSectors records

/-- No read attempt and no write request of the drive fails. -/
structure FaultFree (drive : Drive) : Prop where
  read : ∀ request attempt, drive.readFault request attempt = false
  write : ∀ request, drive.writeFault request = .clear

theorem clean_of_faultFree {ata : Ata} (hfree : FaultFree ata.drive) (reads : ℕ) :
    ataModel.Clean reads ata := by
  intro index _
  rw [ataModel_advance]
  simp only [ataModel, hfree.read, List.all_eq_false, List.mem_range]
  exact ⟨0, by decide, by decide⟩

theorem fails_of_faultFree {ata : Ata} (hfree : FaultFree ata.drive) :
    ataModel.fails ata = false :=
  clean_of_faultFree hfree 1 0 Nat.one_pos

theorem FaultFree.advance {ata : Ata} (hfree : FaultFree ata.drive) (reads : ℕ) :
    FaultFree (ataModel.advance reads ata).drive := by
  rw [ataModel_advance]
  exact ⟨hfree.read, hfree.write⟩

section Region

variable {machine : Machine} {dataSectors : ℕ} {records : List JournalEntry}

theorem RegionReady.readable (hready : RegionReady machine) :
    RegionReadable ataModel machine.ata (tailStart machine.ata)
      persistentJournalRegionSectors := by
  intro offset hoffset
  refine ⟨hready.wellFormed, hready.present, ?_⟩
  have hlarge := hready.large
  unfold tailStart
  omega

theorem RegionReady.enable (hready : RegionReady machine) :
    ataEnableTransactionalWrites (tailStart machine.ata) persistentJournalRegionSectors
      machine.ata =
        (true, openWindow (tailStart machine.ata) persistentJournalRegionSectors machine.ata) := by
  have hlarge := hready.large
  have hpositive : 0 < persistentJournalRegionSectors := by decide
  rw [ataEnableTransactionalWrites, if_neg]
  unfold tailStart
  rintro (h | h | h | h)
  · exact h hready.present
  · exact absurd h (by decide)
  · omega
  · omega

theorem tailStart_advance (reads : ℕ) (ata : Ata) :
    tailStart (ataModel.advance reads ata) = tailStart ata :=
  congrArg (· - persistentJournalRegionSectors) (ataModel_advance_fields reads ata).2.1

theorem RegionReady.advance (hready : RegionReady machine) (reads : ℕ) :
    RegionReady { machine with ata := ataModel.advance reads machine.ata } := by
  rw [ataModel_advance]
  exact ⟨⟨hready.wellFormed.lba48, hready.wellFormed.lba28⟩, hready.present, hready.large,
    hready.available⟩

theorem Durable.advance (hdurable : Durable machine dataSectors records) (reads : ℕ) :
    Durable { machine with ata := ataModel.advance reads machine.ata } dataSectors records := by
  refine ⟨hdurable.toRegionReady.advance reads, ?_⟩
  rw [ataModel_advance]
  exact hdurable.holds

/-- Neither the store nor the statics of `persistent.c` matter to what is on the drive. -/
theorem Durable.congr {other : Machine} (hdurable : Durable machine dataSectors records)
    (hata : other.ata = machine.ata) (hvfs : other.vfs = machine.vfs) :
    Durable other dataSectors records := by
  rcases other with ⟨ata, vfs, store, persistent⟩
  subst hata hvfs
  exact ⟨⟨hdurable.wellFormed, hdurable.present, hdurable.large, hdurable.available⟩,
    hdurable.holds⟩

/-! ### Boots with any fault -/

/-- What a boot step makes of a system whose writes are protected: they still are, or the region
holds a journal and the window is open on it. -/
def Settles (before after : Machine) : Prop :=
  after.vfs = before.vfs ∧ ∃ reads,
    (after.persistent.enabled = false ∧ after.ata = ataModel.advance reads before.ata) ∨
    (after.persistent.enabled = true ∧ after.persistent.regionStart = tailStart before.ata ∧
      after.ata = openWindow (tailStart before.ata) persistentJournalRegionSectors
        (ataModel.advance reads before.ata) ∧
      ∃ dataSectors records, Durable before dataSectors records)

theorem replayRegion_settles (hready : RegionReady machine)
    (hstart : machine.persistent.regionStart = tailStart machine.ata)
    (hdisabled : machine.persistent.enabled = false) :
    Settles machine (replayRegion machine).2 := by
  obtain ⟨first, hfirst, hholds⟩ :=
    journalReplay_cases hready.readable ramfsApplyJournalEntry machine.store
  rw [← hstart] at hfirst hholds
  rw [replayRegion]
  generalize journalReplay ataCallbacks ramfsApplyJournalEntry machine.persistent.regionStart
    persistentJournalRegionSectors machine.ata machine.store = replayed at hfirst hholds ⊢
  rcases replayed with ⟨_ | applied, ata, store⟩
  · exact ⟨rfl, first, Or.inl ⟨hdisabled, hfirst⟩⟩
  · obtain ⟨dataSectors, records, hjournal⟩ := hholds rfl
    rw [hstart] at hjournal
    obtain rfl : ata = ataModel.advance first machine.ata := hfirst
    obtain ⟨second, hsecond⟩ := journalNextSequence_state (hready.advance first).readable
    simp only [tailStart_advance, ← hstart, ← ReadModel.advance_add] at hsecond
    have henable := (hready.advance (first + second)).enable
    simp only [tailStart_advance] at henable
    simp only
    generalize journalNextSequence ataCallbacks machine.persistent.regionStart
      persistentJournalRegionSectors (ataModel.advance first machine.ata) = next at hsecond ⊢
    rcases next with ⟨_ | sequence, final⟩
    · exact ⟨rfl, first + second, Or.inl ⟨rfl, hsecond⟩⟩
    · obtain rfl : final = ataModel.advance (first + second) machine.ata := hsecond
      simp only [hstart, henable]
      exact ⟨rfl, first + second, Or.inr ⟨rfl, rfl, rfl, dataSectors, records, hready, hjournal⟩⟩

/-- A boot ends after its reads, with a failure only if there is a superblock, or goes on to replay
the region. -/
theorem persistentRamfsInit_cases (hwell : machine.ata.WellFormed) :
    (∃ reads start success,
      (success = false →
        journalSuperblockDecode (machine.ata.drive.disk (tailStart machine.ata)) ≠ none) ∧
      persistentRamfsInit machine = (success,
        { machine with
          ata := ataModel.advance reads (ataDisableTransactionalWrites machine.ata)
          persistent := ⟨false, start, 0, 0⟩ })) ∨
    RegionReady (closed machine) ∧
      journalSuperblockDecode (machine.ata.drive.disk (tailStart machine.ata)) ≠ none ∧
      persistentRamfsInit machine = replayRegion
        { closed machine with ata := ataModel.advance 1 (closed machine).ata } := by
  rw [persistentRamfsInit]
  by_cases hexists : regionExists machine.ata = true
  · obtain ⟨hpresent, hlarge⟩ := of_decide_eq_true hexists
    rw [if_neg (not_not.mpr hexists), probeRegion]
    by_cases havailable : regionAvailable (closed machine) = true
    · have hready : RegionReady (closed machine) :=
        ⟨⟨hwell.lba48, hwell.lba28⟩, hpresent, hlarge, havailable⟩
      have hread : ataCallbacks.read (closed machine).persistent.regionStart (closed machine).ata =
          _ := ataModel.read_eq _ _ (hready.readable 0 (by decide))
      rw [if_neg (not_not.mpr havailable), hread]
      cases ataModel.fails (closed machine).ata with
      | true => exact Or.inl ⟨1, _, true, Bool.noConfusion, rfl⟩
      | false =>
        have hdisk : ataModel.stored (closed machine).ata (closed machine).persistent.regionStart =
          machine.ata.drive.disk (tailStart machine.ata) := rfl
        simp only [Bool.false_eq_true, if_false, hdisk]
        cases journalSuperblockDecode (machine.ata.drive.disk (tailStart machine.ata)) with
        | none => exact Or.inl ⟨1, _, true, Bool.noConfusion, rfl⟩
        | some dataSectors =>
          by_cases hroom : dataSectors + 1 > persistentJournalRegionSectors
          · exact Or.inl ⟨1, _, false, fun _ ↦ Option.some_ne_none _, if_pos hroom⟩
          · exact Or.inr ⟨hready, Option.some_ne_none _, if_neg hroom⟩
    · rw [if_pos havailable]
      exact Or.inl ⟨0, _, true, Bool.noConfusion, rfl⟩
  · rw [if_pos hexists]
    exact Or.inl ⟨0, 0, true, Bool.noConfusion, rfl⟩

/-- Every boot leaves writes protected, or finds a journal and opens the window on its region. -/
theorem persistentRamfsInit_settles (hwell : machine.ata.WellFormed) :
    Settles { machine with ata := ataDisableTransactionalWrites machine.ata }
      (persistentRamfsInit machine).2 := by
  rcases persistentRamfsInit_cases hwell with ⟨reads, start, success, -, hinit⟩ | ⟨hready, -, hinit⟩
  · rw [hinit]
    exact ⟨rfl, reads, Or.inl ⟨rfl, rfl⟩⟩
  · obtain ⟨hvfs, reads, hcases⟩ :=
      replayRegion_settles (hready.advance 1) (tailStart_advance 1 (closed machine).ata).symm rfl
    simp only [tailStart_advance, ← ReadModel.advance_add] at hcases
    rw [hinit]
    refine ⟨hvfs, 1 + reads, hcases.imp id ?_⟩
    rintro ⟨henabled, hregion, hata, dataSectors, records, hdurable⟩
    have hholds := hdurable.holds
    exact ⟨henabled, hregion, hata, dataSectors, records,
      ⟨hready.wellFormed, hready.present, hready.large, hready.available⟩, hholds⟩

/-- A boot that finds no superblock leaves the system volatile, whatever else is on the drive. -/
theorem persistentRamfsInit_of_blank (hwell : machine.ata.WellFormed)
    (hblank : journalSuperblockDecode (machine.ata.drive.disk (tailStart machine.ata)) = none) :
    ∃ reads start, persistentRamfsInit machine = (true,
      { machine with
        ata := ataModel.advance reads (ataDisableTransactionalWrites machine.ata)
        persistent := ⟨false, start, 0, 0⟩ }) := by
  rcases persistentRamfsInit_cases hwell with
    ⟨reads, start, success, hfound, hinit⟩ | ⟨-, hfound, -⟩
  · cases success with
    | false => exact absurd hblank (hfound rfl)
    | true => exact ⟨reads, start, hinit⟩
  · exact absurd hblank hfound

/-! ### Boots without faults -/

/-- The system after a boot that replayed these records into this store. The window is open unless
the sequence space is exhausted. -/
def restored (records : List JournalEntry) (store : Store) (ata : Ata) (vfs : VfsState) : Machine :=
  if lastSequence 0 records = 0xFFFFFFFF then
    ⟨ata, vfs, store, ⟨false, tailStart ata, 0, records.length⟩⟩
  else
    ⟨openWindow (tailStart ata) persistentJournalRegionSectors ata, vfs, store,
      ⟨true, tailStart ata, UInt32.ofNat (lastSequence 0 records + 1), records.length⟩⟩

section

variable (hdurable : Durable machine dataSectors records)
include hdurable

section

variable (hfree : FaultFree machine.ata.drive)
  (hstart : machine.persistent.regionStart = tailStart machine.ata)
include hfree hstart

theorem replayRegion_of_durable {store : Store}
    (happly : applyRecords ramfsApplyJournalEntry records machine.store = (true, store)) :
    ∃ reads, replayRegion machine =
      (true, restored records store (ataModel.advance reads machine.ata) machine.vfs) := by
  obtain ⟨first, hreplay⟩ := journalReplay_of_holds
    (hdurable.readable.mono hdurable.holds.dataSectors_lt) ramfsApplyJournalEntry machine.store
    hdurable.holds (clean_of_faultFree hfree _)
  have hnext := journalNextSequence_of_holds (hdurable.advance first).readable
    (hdurable.advance first).holds (clean_of_faultFree (hfree.advance first) _)
  simp only [tailStart_advance] at hnext
  rw [happly] at hreplay
  generalize openReads (ataModel.stored (ataModel.advance first machine.ata))
    (tailStart machine.ata) dataSectors records.length = second at hnext
  rw [← ReadModel.advance_add] at hnext
  have henable := (hdurable.toRegionReady.advance (first + second)).enable
  simp only [tailStart_advance] at henable
  refine ⟨first + second, ?_⟩
  simp only [replayRegion, hstart, hreplay, replayResult, if_true, hnext, restored,
    tailStart_advance]
  by_cases hexhausted : lastSequence 0 records = 0xFFFFFFFF
  · simp only [if_pos hexhausted]
  · simp only [if_neg hexhausted, henable]

/-- A record the store refuses ends the boot with persistence disabled. -/
theorem replayRegion_refused
    (hrefused : (applyRecords ramfsApplyJournalEntry records machine.store).1 = false) :
    (replayRegion machine).2.persistent = machine.persistent := by
  obtain ⟨reads, hreplay⟩ := journalReplay_of_holds
    (hdurable.readable.mono hdurable.holds.dataSectors_lt) ramfsApplyJournalEntry machine.store
    hdurable.holds (clean_of_faultFree hfree _)
  simp only [replayRegion, hstart, hreplay, replayResult, hrefused, Bool.false_eq_true, if_false]

/-- A boot that finds a journal goes on to replay it. -/
theorem probeRegion_of_durable :
    probeRegion machine = replayRegion { machine with ata := ataModel.advance 1 machine.ata } := by
  have havailable : regionAvailable machine = true := by
    rw [regionAvailable, hstart]
    exact hdurable.available
  have hread := ReadModel.read_of_clean (hdurable.readable 0 (by decide))
    (fails_of_faultFree hfree)
  rw [Nat.add_zero, ← hstart] at hread
  have hsuperblock : journalSuperblockDecode (ataModel.stored machine.ata
      machine.persistent.regionStart) = some dataSectors := by
    rw [hstart]
    exact hdurable.holds.superblock
  have hroom : ¬dataSectors + 1 > persistentJournalRegionSectors :=
    not_lt.mpr hdurable.holds.dataSectors_lt
  rw [probeRegion, if_neg (not_not.mpr havailable), hread]
  simp only [hsuperblock]
  rw [if_neg hroom]
  rfl

end

theorem Durable.closed :
    Durable (closed machine) dataSectors records where
  wellFormed := ⟨hdurable.wellFormed.lba48, hdurable.wellFormed.lba28⟩
  present := hdurable.present
  large := hdurable.large
  available := hdurable.available
  holds := hdurable.holds

section

variable (hfree : FaultFree machine.ata.drive)
include hfree

theorem persistentRamfsInit_eq_replayRegion :
    persistentRamfsInit machine = replayRegion
      { closed machine with ata := ataModel.advance 1 (closed machine).ata } := by
  have hexists : regionExists machine.ata = true :=
    decide_eq_true ⟨hdurable.present, hdurable.large⟩
  rw [← probeRegion_of_durable hdurable.closed ⟨hfree.read, hfree.write⟩ rfl, persistentRamfsInit,
    if_neg (not_not.mpr hexists)]

/-- The boot of a system whose journal the store accepts. -/
theorem persistentRamfsInit_of_durable {store : Store}
    (happly : applyRecords ramfsApplyJournalEntry records machine.store = (true, store)) :
    ∃ reads, persistentRamfsInit machine =
      (true, restored records store
        (ataModel.advance reads (ataDisableTransactionalWrites machine.ata)) machine.vfs) := by
  have hclosed : FaultFree (closed machine).ata.drive := ⟨hfree.read, hfree.write⟩
  obtain ⟨reads, hreplay⟩ := replayRegion_of_durable (hdurable.closed.advance 1)
    (hclosed.advance 1) (tailStart_advance 1 (closed machine).ata).symm happly
  refine ⟨1 + reads, ?_⟩
  rw [persistentRamfsInit_eq_replayRegion hdurable hfree, hreplay, ReadModel.advance_add]
  rfl

/-- A journal the store does not accept leaves persistence disabled. -/
theorem persistentRamfsInit_refused
    (hrefused : (applyRecords ramfsApplyJournalEntry records machine.store).1 = false) :
    (persistentRamfsInit machine).2.persistent.enabled = false := by
  have hclosed : FaultFree (closed machine).ata.drive := ⟨hfree.read, hfree.write⟩
  rw [persistentRamfsInit_eq_replayRegion hdurable hfree,
    replayRegion_refused (hdurable.closed.advance 1) (hclosed.advance 1)
      (tailStart_advance 1 (closed machine).ata).symm hrefused]
  rfl

end

end

end Region

/-! ### A small drive -/

/-- The identify data of a drive with 100 sectors. -/
def smallIdentify (word : ℕ) : UInt16 :=
  if word = 49 then 0x0200 else if word = 60 then 100 else 0

/-- The system with this drive of 100 sectors, without a volume, before `ramfs_init`. -/
def smallMachine (drive : Drive) : Machine where
  ata := ataInit (some smallIdentify) ⟨false, 0, false, true, 0, 0, blockDeviceReset, drive⟩
  vfs := ⟨none, some ⟨blockDeviceMagic, 100, blockDeviceSectorSize, 128, true, false⟩⟩
  store := emptyStore
  persistent := ⟨false, 0, 0, 0⟩

/-- Empty sectors but for the superblock of a journal in the last 65 of 100. -/
def formattedSectors : ℕ → Sector :=
  Function.update (fun _ ↦ Buffer.zeroed 512) 35
    ((journalSuperblockEncode 64).getD (Buffer.zeroed 512))

theorem regionReady_smallMachine (drive : Drive) : RegionReady (smallMachine drive) where
  wellFormed :=
    (ataInit_cases (some smallIdentify) ⟨false, 0, false, true, 0, 0, blockDeviceReset, drive⟩).1
  present := rfl
  large := show 65 < 100 by decide
  available := rfl

theorem durable_smallMachine {drive : Drive} (hdisk : drive.disk = formattedSectors) :
    Durable (smallMachine drive) 64 [] := by
  have hencode : (journalSuperblockEncode 64).isSome :=
    journalSuperblockEncode_isSome (by decide) (by decide)
  obtain ⟨superblock, hsuperblock⟩ := Option.isSome_iff_exists.mp hencode
  refine ⟨regionReady_smallMachine drive, ?_⟩
  change HoldsJournal drive.disk 35 65 64 []
  rw [hdisk]
  refine .of_empty (by decide) (by decide) (by decide) ?_ (by decide) fun index _ ↦ ?_
  · rw [formattedSectors, hsuperblock, Function.update_self]
    exact journalSuperblockDecode_encode hsuperblock
  · exact Function.update_of_ne (by omega) _ _

end EfesOS.Fs.Persistent
