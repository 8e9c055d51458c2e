import EfesOS.Fs.Persistent.Durability

/-!
# Confinement of ATA writes

Where write commands can go, over every run from power-on: `ata_init`, `vfs_init` on the detected
drive, and then boots, formats and persistent calls in any order, on any disk and with any fault.
`Guarded` is the invariant of the driver: what the write window admits is allowed, and so is every
command issued so far. Each operation of the driver keeps it, and the window is opened on the
journal region only, which `vfs_journal_region_available` has checked against the mounted volume.

`writes_are_confined` is the result: commands stay in the last 65 sectors and out of the volume, and
without a journal on the disk and without a format there are none.
-/

set_option autoImplicit false

namespace EfesOS.Fs.Persistent

open EfesOS.Foundation EfesOS.Drivers EfesOS.Fs.Journal EfesOS.Fs.Ramfs EfesOS.Fs.Vfs

/-! ### Runs from power-on -/

/-- The system after `ata_init` and `vfs_init` on a drive with this content and these faults. -/
def powerOn (identify : Option (ℕ → UInt16)) (disk : ℕ → Sector) (readFault : ℕ → ℕ → Bool)
    (writeFault : ℕ → WriteFault) (store : Store) : Machine :=
  let ata := ataInit identify
    ⟨false, 0, false, true, 0, 0, blockDeviceReset, ⟨disk, readFault, writeFault, 0, 0, []⟩⟩
  match vfsInit ataBlockRead (ataBlockDevice ata) ata with
  | (vfs, ata) => ⟨ata, vfs, store, ⟨false, 0, 0, 0⟩⟩

inductive Event
  | init
  | format (allocated : Bool)
  | call (call : Call)

def runEvent : Event → Machine → Machine
  | .init, machine => (persistentRamfsInit machine).2
  | .format allocated, machine => (persistentRamfsFormat allocated machine).2
  | .call call, machine => (runCall call machine).2

def runEvents (events : List Event) (machine : Machine) : Machine :=
  events.foldl (fun machine event ↦ runEvent event machine) machine

/-- A sector of the last 65 that does not belong to the mounted volume. -/
def Allowed (vfs : VfsState) (sectors lba : ℕ) : Prop :=
  sectors - persistentJournalRegionSectors ≤ lba ∧ lba < sectors ∧
    ∀ volume, vfs.volume = some volume →
      ¬(volume.startLba ≤ lba ∧ lba < volume.startLba + volume.totalSectors)

/-! ### The driver -/

/-- The write window admits allowed sectors only, and commands were issued for no others. -/
structure Guarded (sectors : ℕ) (allowed : ℕ → Prop) (ata : Ata) : Prop where
  wellFormed : ata.WellFormed
  sectors_eq : ata.sectors = sectors
  window : ∀ lba, windowAdmits ata lba 1 = true → allowed lba
  commands : ∀ lba ∈ ata.drive.commands, allowed lba

namespace Guarded

variable {sectors : ℕ} {allowed : ℕ → Prop} {ata : Ata}

section

variable (hguarded : Guarded sectors allowed ata)
include hguarded

theorem advance (reads : ℕ) :
    Guarded sectors allowed (ataModel.advance reads ata) := by
  rw [ataModel_advance]
  exact ⟨⟨hguarded.wellFormed.lba48, hguarded.wellFormed.lba28⟩, hguarded.sectors_eq,
    hguarded.window, hguarded.commands⟩

theorem readSectors (lba count : ℕ) :
    Guarded sectors allowed (ataReadSectors lba count ata).2 := by
  obtain ⟨reads, hreads, -⟩ := ataReadSectors_cases lba count ata
  rw [hreads]
  exact hguarded.advance reads

theorem read (lba : ℕ) :
    Guarded sectors allowed (ataCallbacks.read lba ata).2 := by
  obtain ⟨reads, hreads⟩ := ataCallbacks_read_state lba ata
  rw [hreads]
  exact hguarded.advance reads

/-- A write issues a command only for a sector that the window admits. -/
theorem write (lba : ℕ) (sector : Sector) :
    Guarded sectors allowed (ataCallbacks.write lba sector ata).2 := by
  cases hadmits : windowAdmits ata lba 1 with
  | false =>
    rw [ataCallbacks_write_refused hadmits]
    exact hguarded
  | true =>
    rw [ataCallbacks_write hguarded.wellFormed hadmits]
    refine ⟨⟨hguarded.wellFormed.lba48, hguarded.wellFormed.lba28⟩, hguarded.sectors_eq,
      hguarded.window, fun issued hissued ↦ ?_⟩
    simp only [afterWrite] at hissued
    split_ifs at hissued
    · exact hguarded.commands issued hissued
    · rcases List.mem_append.mp hissued with hold | hnew
      · exact hguarded.commands issued hold
      · obtain rfl := List.mem_singleton.mp hnew
        exact hguarded.window issued hadmits

theorem disable :
    Guarded sectors allowed (ataDisableTransactionalWrites ata) :=
  ⟨⟨hguarded.wellFormed.lba48, hguarded.wellFormed.lba28⟩, hguarded.sectors_eq,
    fun _ hadmits ↦ absurd (of_decide_eq_true hadmits).1 (by simp [ataDisableTransactionalWrites]),
    hguarded.commands⟩

theorem openWindow {start count : ℕ}
    (hallowed : ∀ lba, start ≤ lba → lba < start + count → allowed lba) :
    Guarded sectors allowed (openWindow start count ata) := by
  refine ⟨⟨hguarded.wellFormed.lba48, hguarded.wellFormed.lba28⟩, hguarded.sectors_eq,
    fun lba hadmits ↦ ?_, hguarded.commands⟩
  obtain ⟨-, -, hstart, hcount, -⟩ := of_decide_eq_true hadmits
  simp only [Drivers.openWindow] at hstart hcount
  exact hallowed lba hstart (by omega)

theorem enable {start count : ℕ}
    (hallowed : ∀ lba, start ≤ lba → lba < start + count → allowed lba) :
    Guarded sectors allowed (ataEnableTransactionalWrites start count ata).2 := by
  rw [ataEnableTransactionalWrites]
  split_ifs
  · exact hguarded
  · exact hguarded.openWindow hallowed

end

end Guarded

/-! ### The steps of a run -/

section Steps

variable {machine : Machine} {sectors : ℕ} {allowed : ℕ → Prop} {property : Ata → Prop}

theorem commitEntry_state (request : JournalRequest) (entry : JournalEntry) (machine : Machine) :
    (commitEntry request entry machine).2.vfs = machine.vfs ∧
      (commitEntry request entry machine).2.ata =
        (journalAppend ataCallbacks machine.persistent.regionStart persistentJournalRegionSectors
          request machine.ata).2 := by
  rw [commitEntry]
  rcases journalAppend ataCallbacks machine.persistent.regionStart persistentJournalRegionSectors
    request machine.ata with ⟨_ | _, ata⟩
  · exact ⟨rfl, rfl⟩
  · rcases ramfsApplyJournalEntry entry machine.store with ⟨_ | _, store⟩
    · exact ⟨rfl, rfl⟩
    · exact ⟨rfl, rfl⟩

/-- A call does to the driver no more than its reads and writes do. -/
theorem runCall_preserves (hread : ∀ lba ata, property ata → property (ataCallbacks.read lba ata).2)
    (hwrite : ∀ lba sector ata, property ata → property (ataCallbacks.write lba sector ata).2)
    (call : Call) (hata : property machine.ata) :
    (runCall call machine).2.vfs = machine.vfs ∧ property (runCall call machine).2.ata := by
  cases hrequest : callRequest machine call with
  | none =>
    rw [runCall_of_none hrequest]
    exact ⟨rfl, hata⟩
  | some request =>
    obtain ⟨-, -, hcommit⟩ := runCall_of_some hrequest
    obtain ⟨hvfs, hstate⟩ := commitEntry_state request request.entry machine
    rw [hcommit]
    refine ⟨hvfs, ?_⟩
    rw [hstate]
    exact journalAppend_preserves hread hwrite _ _ _ hata

/-- A boot opens the window on the region of a journal only. -/
theorem persistentRamfsInit_guarded (hguarded : Guarded sectors allowed machine.ata)
    (hallowed : ∀ dataSectors records, Durable machine dataSectors records →
      ∀ lba, tailStart machine.ata ≤ lba →
        lba < tailStart machine.ata + persistentJournalRegionSectors → allowed lba) :
    (persistentRamfsInit machine).2.vfs = machine.vfs ∧
      Guarded sectors allowed (persistentRamfsInit machine).2.ata := by
  obtain ⟨hvfs, reads, ⟨-, hata⟩ | ⟨-, -, hata, dataSectors, records, hdurable⟩⟩ :=
    persistentRamfsInit_settles hguarded.wellFormed
  · rw [hata]
    exact ⟨hvfs, hguarded.disable.advance reads⟩
  · rw [hata]
    refine ⟨hvfs, (hguarded.disable.advance reads).openWindow (hallowed dataSectors records ?_)⟩
    exact ⟨⟨hguarded.wellFormed, hdurable.present, hdurable.large, hdurable.available⟩,
      hdurable.holds⟩

theorem formatRegion_guarded (allocated : Bool) (hguarded : Guarded sectors allowed machine.ata)
    (hallowed : ∀ lba, machine.persistent.regionStart ≤ lba →
      lba < machine.persistent.regionStart + persistentJournalRegionSectors → allowed lba) :
    (formatRegion allocated machine).2.vfs = machine.vfs ∧
      Guarded sectors allowed (formatRegion allocated machine).2.ata := by
  have hread := hguarded.readSectors machine.persistent.regionStart persistentJournalRegionSectors
  rw [formatRegion]
  by_cases hallocated : ¬allocated = true
  · rw [if_pos hallocated]
    exact ⟨rfl, hguarded⟩
  rw [if_neg hallocated]
  generalize ataReadSectors machine.persistent.regionStart persistentJournalRegionSectors
    machine.ata = answer at hread ⊢
  rcases answer with ⟨_ | buffer, ata⟩
  · exact ⟨rfl, hread⟩
  dsimp only
  by_cases hempty : ¬buffer.all sectorIsEmpty = true
  · rw [if_pos hempty]
    exact ⟨rfl, hread⟩
  rw [if_neg hempty]
  cases journalSuperblockEncode (persistentJournalRegionSectors - 1) with
  | none => exact ⟨rfl, hread.disable⟩
  | some superblock =>
    have henable := hread.enable hallowed
    generalize ataEnableTransactionalWrites machine.persistent.regionStart
      persistentJournalRegionSectors ata = enabled at henable ⊢
    rcases enabled with ⟨_ | _, opened⟩
    · exact ⟨rfl, henable.disable⟩
    have hwrite := henable.write machine.persistent.regionStart superblock
    dsimp only at hwrite ⊢
    generalize ataCallbacks.write machine.persistent.regionStart superblock opened = written
      at hwrite ⊢
    rcases written with ⟨_ | _, stored⟩
    · exact ⟨rfl, hwrite.disable⟩
    have hback := hwrite.read machine.persistent.regionStart
    dsimp only at hback ⊢
    generalize ataCallbacks.read machine.persistent.regionStart stored = reread at hback ⊢
    rcases reread with ⟨_ | sector, final⟩
    · exact ⟨rfl, hback.disable⟩
    dsimp only
    split_ifs
    · exact ⟨rfl, hback.disable⟩
    · exact ⟨rfl, hback⟩

/-- A format opens the window on an available region only. -/
theorem persistentRamfsFormat_guarded (allocated : Bool)
    (hguarded : Guarded sectors allowed machine.ata)
    (hallowed : RegionReady machine → ∀ lba, tailStart machine.ata ≤ lba →
      lba < tailStart machine.ata + persistentJournalRegionSectors → allowed lba) :
    (persistentRamfsFormat allocated machine).2.vfs = machine.vfs ∧
      Guarded sectors allowed (persistentRamfsFormat allocated machine).2.ata := by
  rw [persistentRamfsFormat]
  by_cases hguard : machine.persistent.enabled ∨ ¬ramfsIsPristine machine.store ∨
      ¬regionExists machine.ata
  · rw [if_pos hguard]
    exact ⟨rfl, hguarded⟩
  rw [if_neg hguard]
  by_cases havailable : regionAvailable (locateRegion machine) = true
  · rw [if_neg (not_not.mpr havailable)]
    simp only [not_or, Bool.not_eq_true, Bool.not_eq_false] at hguard
    obtain ⟨hpresent, hlarge⟩ := of_decide_eq_true hguard.2.2
    exact @formatRegion_guarded (locateRegion machine) _ _ allocated hguarded
      (hallowed ⟨hguarded.wellFormed, hpresent, hlarge, havailable⟩)
  · rw [if_pos havailable]
    exact ⟨rfl, hguarded⟩

/-- The journal region is allowed. -/
theorem RegionReady.region_allowed (hready : RegionReady machine) {lba : ℕ}
    (hfirst : tailStart machine.ata ≤ lba)
    (hlast : lba < tailStart machine.ata + persistentJournalRegionSectors) :
    Allowed machine.vfs machine.ata.sectors lba := by
  have hlarge := hready.large
  obtain ⟨-, -, hvolume⟩ := (vfsJournalRegionAvailable_iff _ _ _).mp hready.available
  refine ⟨hfirst, ?_, fun volume hmounted hinside ↦ ?_⟩
  · unfold tailStart at hlast
    omega
  · rcases hvolume volume hmounted with hafter | hbefore
    · omega
    · omega

/-- The invariant of a run: the drive and the volume stay the same, and the driver is guarded by
the allowed sectors. -/
structure Confined (vfs : VfsState) (sectors : ℕ) (machine : Machine) : Prop where
  vfs_eq : machine.vfs = vfs
  guarded : Guarded sectors (Allowed vfs sectors) machine.ata

theorem Confined.step {vfs : VfsState} (hconfined : Confined vfs sectors machine) (event : Event) :
    Confined vfs sectors (runEvent event machine) := by
  obtain ⟨rfl, hguarded⟩ := hconfined
  obtain rfl := hguarded.sectors_eq
  cases event with
  | init =>
    obtain ⟨hvfs, hnext⟩ := persistentRamfsInit_guarded hguarded
      fun _ _ hdurable _ hfirst hlast ↦ hdurable.region_allowed hfirst hlast
    exact ⟨hvfs, hnext⟩
  | format allocated =>
    obtain ⟨hvfs, hnext⟩ := persistentRamfsFormat_guarded allocated hguarded
      fun hready _ hfirst hlast ↦ hready.region_allowed hfirst hlast
    exact ⟨hvfs, hnext⟩
  | call call =>
    obtain ⟨hvfs, hnext⟩ := runCall_preserves (fun lba _ h ↦ h.read lba)
      (fun lba sector _ h ↦ h.write lba sector) call hguarded
    exact ⟨hvfs, hnext⟩

theorem Confined.run {vfs : VfsState} (hconfined : Confined vfs sectors machine)
    (events : List Event) : Confined vfs sectors (runEvents events machine) := by
  induction events generalizing machine with
  | nil => exact hconfined
  | cons event events ih => exact ih (hconfined.step event)

/-- The invariant of a run without a journal and without a format: nothing may be written and the
disk is as it was. -/
structure Untouched (disk : ℕ → Sector) (sectors : ℕ) (ata : Ata) : Prop where
  guarded : Guarded sectors (fun _ ↦ False) ata
  disk_eq : ata.drive.disk = disk

variable {disk : ℕ → Sector} {ata : Ata}

section

variable (huntouched : Untouched disk sectors ata)
include huntouched

theorem Untouched.advance (reads : ℕ) :
    Untouched disk sectors (ataModel.advance reads ata) :=
  ⟨huntouched.guarded.advance reads,
    (ataModel_advance_fields reads ata).2.2.trans huntouched.disk_eq⟩

theorem Untouched.read (lba : ℕ) :
    Untouched disk sectors (ataCallbacks.read lba ata).2 := by
  obtain ⟨reads, hreads⟩ := ataCallbacks_read_state lba ata
  rw [hreads]
  exact huntouched.advance reads

theorem Untouched.write (lba : ℕ) (sector : Sector) :
    Untouched disk sectors (ataCallbacks.write lba sector ata).2 := by
  cases hadmits : windowAdmits ata lba 1 with
  | false =>
    rw [ataCallbacks_write_refused hadmits]
    exact huntouched
  | true => exact (huntouched.guarded.window lba hadmits).elim

end

section

variable (huntouched : Untouched disk sectors machine.ata)
  (hnone : ¬∃ dataSectors records,
    HoldsJournal disk (sectors - persistentJournalRegionSectors) persistentJournalRegionSectors
      dataSectors records)
include huntouched hnone

theorem Untouched.step {event : Event} (hevent : ∀ allocated, event ≠ .format allocated) :
    Untouched disk sectors (runEvent event machine).ata := by
  cases event with
  | init =>
    have hwell := huntouched.guarded.wellFormed
    obtain ⟨-, reads, ⟨-, hata⟩ | ⟨-, -, -, dataSectors, records, hdurable⟩⟩ :=
      persistentRamfsInit_settles hwell
    · have hclosed : Untouched disk sectors (ataDisableTransactionalWrites machine.ata) :=
        ⟨huntouched.guarded.disable, huntouched.disk_eq⟩
      rw [runEvent, hata]
      exact hclosed.advance reads
    · refine absurd ⟨dataSectors, records, ?_⟩ hnone
      rw [← huntouched.disk_eq, ← huntouched.guarded.sectors_eq]
      exact hdurable.holds
  | format allocated => exact absurd rfl (hevent allocated)
  | call call =>
    exact (runCall_preserves (fun lba _ h ↦ h.read lba)
      (fun lba sector _ h ↦ h.write lba sector) call huntouched).2

theorem Untouched.run {events : List Event}
    (hevents : ∀ allocated, Event.format allocated ∉ events) :
    Untouched disk sectors (runEvents events machine).ata := by
  induction events generalizing machine with
  | nil => exact huntouched
  | cons event events ih =>
    refine ih (huntouched.step hnone ?_) fun allocated hmem ↦
      hevents allocated (List.mem_cons_of_mem _ hmem)
    rintro allocated rfl
    exact hevents allocated List.mem_cons_self

end

end Steps

/-! ### Runs -/

/-- What power-on leaves: writes are protected, nothing has been written, and a mounted volume lies
on the drive. -/
theorem powerOn_cases (identify : Option (ℕ → UInt16)) (disk : ℕ → Sector)
    (readFault : ℕ → ℕ → Bool) (writeFault : ℕ → WriteFault) (store : Store) :
    Untouched disk (powerOn identify disk readFault writeFault store).ata.sectors
        (powerOn identify disk readFault writeFault store).ata ∧
      ∀ volume, (powerOn identify disk readFault writeFault store).vfs.volume = some volume →
        VolumeFits volume (powerOn identify disk readFault writeFault store).ata.sectors := by
  rw [powerOn]
  obtain ⟨hwell, hprotected, hdrive, hcount⟩ := ataInit_cases identify
    ⟨false, 0, false, true, 0, 0, blockDeviceReset, ⟨disk, readFault, writeFault, 0, 0, []⟩⟩
  generalize ataInit identify
    ⟨false, 0, false, true, 0, 0, blockDeviceReset, ⟨disk, readFault, writeFault, 0, 0, []⟩⟩ = ata
    at hwell hprotected hdrive hcount ⊢
  have hstart : Untouched disk ata.sectors ata := by
    refine ⟨⟨hwell, rfl, fun lba hadmits ↦ ?_, ?_⟩, ?_⟩
    · exact (of_decide_eq_true hadmits).1 hprotected
    · rw [hdrive]
      exact fun _ ↦ List.not_mem_nil
    · rw [hdrive]
  have hread : ∀ lba count state, Untouched disk ata.sectors state →
      Untouched disk ata.sectors (ataBlockRead lba count state).2 := by
    intro lba count state hstate
    rw [ataBlockRead]
    split_ifs
    · exact hstate
    · obtain ⟨reads, hreads, -⟩ := ataReadSectors_cases lba count state
      rw [hreads]
      exact hstate.advance reads
  have hmounted := @vfsInit_preserves _ _ (ataBlockDevice ata) _ hread _ hstart
  have hfits := @vfsInit_fits _ ataBlockRead (ataBlockDevice ata) ata
  generalize vfsInit ataBlockRead (ataBlockDevice ata) ata = outcome at hmounted hfits ⊢
  obtain ⟨vfs, after⟩ := outcome
  rw [hmounted.guarded.sectors_eq]
  refine ⟨hmounted, fun volume hvolume ↦ ?_⟩
  rcases hfits with rfl | ⟨-, hfits⟩
  · cases hvolume
  · exact hcount ▸ hfits volume hvolume

/-- Over every run from power-on, with any fault: commands go to the last 65 sectors of the drive
and not to the mounted volume, which lies on the drive, and there are none at all without a journal
on the disk and without a format. -/
theorem writes_are_confined (identify : Option (ℕ → UInt16)) (disk : ℕ → Sector)
    (readFault : ℕ → ℕ → Bool) (writeFault : ℕ → WriteFault) (store : Store)
    (events : List Event) :
    let booted := powerOn identify disk readFault writeFault store
    let final := runEvents events booted
    final.vfs = booted.vfs ∧ final.ata.sectors = booted.ata.sectors ∧
      (∀ volume, booted.vfs.volume = some volume → VolumeFits volume booted.ata.sectors) ∧
      (∀ lba ∈ final.ata.drive.commands, Allowed booted.vfs booted.ata.sectors lba) ∧
      ((∀ allocated, Event.format allocated ∉ events) →
        (¬∃ dataSectors records, HoldsJournal disk (tailStart booted.ata)
          persistentJournalRegionSectors dataSectors records) →
        final.ata.drive.commands = []) := by
  intro booted final
  obtain ⟨huntouched, hvolume⟩ := powerOn_cases identify disk readFault writeFault store
  have hconfined : Confined booted.vfs booted.ata.sectors booted :=
    ⟨rfl, huntouched.guarded.wellFormed, rfl,
      fun lba hadmits ↦ (huntouched.guarded.window lba hadmits).elim,
      fun lba hmem ↦ (huntouched.guarded.commands lba hmem).elim⟩
  have hfinal := hconfined.run events
  refine ⟨hfinal.vfs_eq, hfinal.guarded.sectors_eq, hvolume, hfinal.guarded.commands, ?_⟩
  intro hevents hnone
  have hquiet := (huntouched.run hnone hevents).guarded.commands
  exact List.eq_nil_iff_forall_not_mem.mpr hquiet

/-- On an empty drive, a boot and a remove write nothing. -/
theorem writes_are_confined_empty :
    (runEvents [.init, .call (.remove (some (CString.ascii "EFES")))]
      (powerOn (some smallIdentify) (fun _ ↦ Buffer.zeroed 512) (fun _ _ ↦ false)
        (fun _ ↦ .clear) emptyStore)).ata.drive.commands = [] := by
  refine (writes_are_confined _ _ _ _ _ _).2.2.2.2 (by simp) ?_
  rintro ⟨dataSectors, records, hholds⟩
  have hsuperblock := hholds.superblock
  cases hsuperblock

end EfesOS.Fs.Persistent
