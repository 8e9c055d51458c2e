import EfesOS.Fs.Persistent.Entries
import EfesOS.Fs.Persistent.Region

/-!
# Durability of persistent calls

The live RAM filesystem against the one a reboot would replay. `Synced` relates a running system to
the records of its journal: the window is open on the journal region, the region holds the records,
replaying them over the default files gives the live listing, and the next sequence follows the
last one.

`callRequest` is the record a call appends once it has passed its checks, and `runCall_of_some` says
that the store accepts that record. `runCall_step` carries `Synced` over a call on a drive without
faults, `reboot_of_durable` reads the listing back, and `persistent_calls_are_durable` puts the two
together over every history of calls.
-/

set_option autoImplicit false

namespace EfesOS.Fs.Persistent

open EfesOS.Foundation EfesOS.Drivers EfesOS.Fs.Journal EfesOS.Fs.Ramfs EfesOS.Fs.Vfs

/-! ### Calls and reboots -/

/-- A call of a persistent operation with its arguments. -/
inductive Call
  | write (name contents : Pointer)
  | remove (name : Pointer)

def runCall : Call → Machine → Option Bool × Machine
  | .write name contents, machine => persistentRamfsWriteFile name contents machine
  | .remove name, machine => persistentRamfsRemoveFile name machine

def runCalls (calls : List Call) (machine : Machine) : Machine :=
  calls.foldl (fun machine call ↦ (runCall call machine).2) machine

/-- `ramfs_init` followed by `persistent_ramfs_init`. -/
def reboot (machine : Machine) : Bool × Machine :=
  persistentRamfsInit { machine with store := ramfsInit machine.store }

/-! ### Replay on listings -/

/-- The listing after a list of entries, `none` when one of them is refused. -/
noncomputable def replayListing : List JournalEntry → List RamfsFile → Option (List RamfsFile)
  | [], files => some files
  | entry :: records, files => (applyListing entry files).bind (replayListing records)

theorem replayListing_append (records more : List JournalEntry) (files : List RamfsFile) :
    replayListing (records ++ more) files =
      (replayListing records files).bind (replayListing more) := by
  induction records generalizing files with
  | nil => rfl
  | cons entry records ih =>
    simp only [List.cons_append, replayListing]
    cases applyListing entry files with
    | none => rfl
    | some next => exact ih next

/-- A replay into the store acts on its listing alone. -/
theorem applyRecords_listing (records : List JournalEntry) (store : Store) :
    (∃ after, applyRecords ramfsApplyJournalEntry records store = (true, after) ∧
      replayListing records (listing store) = some (listing after)) ∨
    ((applyRecords ramfsApplyJournalEntry records store).1 = false ∧
      replayListing records (listing store) = none) := by
  induction records generalizing store with
  | nil => exact Or.inl ⟨store, rfl, rfl⟩
  | cons entry records ih =>
    rw [applyRecords, replayListing]
    rcases ramfsApplyJournalEntry_spec entry store with ⟨next, happly, hlisting⟩ |
      ⟨happly, hlisting⟩
    · rw [happly, hlisting]
      exact ih next
    · rw [happly, hlisting]
      exact Or.inr ⟨rfl, rfl⟩

/-! ### What a call comes down to -/

/-- The record a call wants to append, once it has passed its checks. -/
def callRequest (machine : Machine) : Call → Option JournalRequest
  | .write name contents =>
    if ¬machine.persistent.enabled ∨ machine.persistent.nextSequence = 0 then none
    else (ramfsCanWriteFile machine.store name contents).map
      (writeRequest machine.persistent.nextSequence name contents)
  | .remove name =>
    if ¬machine.persistent.enabled ∨ machine.persistent.nextSequence = 0 ∨
      ramfsFileContents machine.store name = none then none
    else some (removeRequest machine.persistent.nextSequence name)

/-- What a call asks for, on listings. -/
def callListing : Call → List RamfsFile → List RamfsFile
  | .write name contents, files =>
    writeListing (RamfsFile.copy (name.getD []) (contents.getD [])) files
  | .remove name, files => removeListing (CString.text (name.getD [])) files

/-- The request carries the next sequence and can be encoded. -/
structure Submits (machine : Machine) (request : JournalRequest) : Prop where
  encodable : request.Encodable
  sequence : request.sequence = machine.persistent.nextSequence.toNat
  nonzero : machine.persistent.nextSequence ≠ 0

theorem runCall_of_none {call : Call} {machine : Machine}
    (hnone : callRequest machine call = none) :
    runCall call machine = (some false, machine) := by
  cases call with
  | write name contents =>
    simp only [callRequest] at hnone
    simp only [runCall, persistentRamfsWriteFile]
    by_cases hready : ¬machine.persistent.enabled ∨ machine.persistent.nextSequence = 0
    · exact if_pos hready
    · rw [if_neg hready, Option.map_eq_none_iff] at hnone
      rw [if_neg hready, hnone]
  | remove name =>
    simp only [callRequest] at hnone
    by_cases hready : ¬machine.persistent.enabled ∨ machine.persistent.nextSequence = 0 ∨
        ramfsFileContents machine.store name = none
    · exact if_pos hready
    · rw [if_neg hready] at hnone
      cases hnone

/-- A call that passes its checks appends a record, and the store makes of its entry what the call
asked for. -/
theorem runCall_of_some {call : Call} {machine : Machine} {request : JournalRequest}
    (hrequest : callRequest machine call = some request) :
    Submits machine request ∧
      applyListing request.entry (listing machine.store) =
        some (callListing call (listing machine.store)) ∧
      runCall call machine = commitEntry request request.entry machine := by
  cases call with
  | write name contents =>
    simp only [callRequest] at hrequest
    simp only [runCall, persistentRamfsWriteFile]
    by_cases hready : ¬machine.persistent.enabled ∨ machine.persistent.nextSequence = 0
    · rw [if_pos hready] at hrequest
      cases hrequest
    · rw [if_neg hready] at hrequest ⊢
      obtain ⟨-, hsequence⟩ := not_or.mp hready
      obtain ⟨length, hcan, rfl⟩ := Option.map_eq_some_iff.mp hrequest
      obtain ⟨nameBytes, contentBytes, rfl, rfl, hlegal, hshort, hroom, rfl⟩ :=
        (ramfsCanWriteFile_eq_some_iff _ _ _ _).mp hcan
      have hencodable := writeRequest_encodable hsequence hlegal hshort
      refine ⟨⟨hencodable, rfl, hsequence⟩, applyListing_writeRequest hlegal hshort hroom, ?_⟩
      simp only [hcan, buildEntry_of_encodable hencodable]
  | remove name =>
    simp only [callRequest] at hrequest
    simp only [runCall, persistentRamfsRemoveFile]
    by_cases hready : ¬machine.persistent.enabled ∨ machine.persistent.nextSequence = 0 ∨
        ramfsFileContents machine.store name = none
    · rw [if_pos hready] at hrequest
      cases hrequest
    · rw [if_neg hready] at hrequest ⊢
      simp only [not_or] at hready
      obtain ⟨-, hsequence, hpresent⟩ := hready
      have hvalid : validName name = true := by
        by_contra hvalid
        exact hpresent (if_pos hvalid)
      obtain ⟨nameBytes, rfl, hlegal⟩ := (Ramfs.validName_iff _).mp hvalid
      obtain rfl := Option.some.inj hrequest
      have hencodable := removeRequest_encodable hsequence hlegal
      refine ⟨⟨hencodable, rfl, hsequence⟩, applyListing_removeRequest hlegal _, ?_⟩
      simp only [buildEntry_of_encodable hencodable]

/-! ### The journal region of a running system -/

/-- The write window is open on the journal region. -/
structure WindowOpen (ata : Ata) : Prop where
  unprotected : ata.writesProtected = false
  start : ata.writeWindowStart = tailStart ata
  length : ata.writeWindowSectors = persistentJournalRegionSectors

/-- Persistence is enabled and the live listing is the one the journal replays to. -/
structure Synced (machine : Machine) (dataSectors : ℕ) (records : List JournalEntry) : Prop
    extends Durable machine dataSectors records where
  enabled : machine.persistent.enabled = true
  regionStart : machine.persistent.regionStart = tailStart machine.ata
  window : WindowOpen machine.ata
  replay : replayListing records defaultListing = some (listing machine.store)
  nextSequence : machine.persistent.nextSequence.toNat =
    if lastSequence 0 records = 0xFFFFFFFF then 0 else lastSequence 0 records + 1

section Region

variable {machine : Machine} {dataSectors : ℕ} {records : List JournalEntry}

variable {ata : Ata}

/-- Every sector of the region is inside the open window. -/
theorem windowAdmits_of_open (hopen : WindowOpen ata) (hpresent : ata.devicePresent = true)
    (hlarge : persistentJournalRegionSectors < ata.sectors) {offset : ℕ}
    (hoffset : offset < persistentJournalRegionSectors) :
    windowAdmits ata (tailStart ata + offset) 1 = true := by
  simp only [windowAdmits, validRequest, hopen.unprotected, hopen.start, hopen.length,
    decide_eq_true_eq, hpresent, tailStart]
  refine ⟨by simp, ⟨trivial, by omega, by omega, by omega, by omega⟩, by omega, by omega, by omega⟩

/-- The drive may change as long as the region still holds a journal with these records. -/
theorem Durable.withDrive (hdurable : Durable machine dataSectors records)
    (hdriver : ata = { machine.ata with drive := ata.drive }) {more : List JournalEntry}
    (hholds : HoldsJournal ata.drive.disk (tailStart machine.ata)
      persistentJournalRegionSectors dataSectors more) :
    Durable { machine with ata := ata } dataSectors more := by
  rw [hdriver]
  exact ⟨⟨⟨hdurable.wellFormed.lba48, hdurable.wellFormed.lba28⟩, hdurable.present,
    hdurable.large, hdurable.available⟩, hholds⟩

theorem Synced.withDrive (hsynced : Synced machine dataSectors records)
    (hdriver : ata = { machine.ata with drive := ata.drive })
    (hholds : HoldsJournal ata.drive.disk (tailStart machine.ata)
      persistentJournalRegionSectors dataSectors records) :
    Synced { machine with ata := ata } dataSectors records := by
  have hdurable := hsynced.toDurable.withDrive hdriver hholds
  rw [hdriver] at hdurable ⊢
  exact
    { toDurable := hdurable
      enabled := hsynced.enabled
      regionStart := hsynced.regionStart
      window := ⟨hsynced.window.unprotected, hsynced.window.start, hsynced.window.length⟩
      replay := hsynced.replay
      nextSequence := hsynced.nextSequence }

/-- The sequence of a synced system is newer than every record of its journal. -/
theorem Synced.newer (hsynced : Synced machine dataSectors records)
    (hsequence : machine.persistent.nextSequence ≠ 0) :
    machine.persistent.nextSequence.toNat = lastSequence 0 records + 1 := by
  have hnext := hsynced.nextSequence
  split_ifs at hnext with hlast
  · exact absurd (UInt32.toNat_inj.mp hnext) hsequence
  · exact hnext

/-- The sequence after a call follows the record it appended. -/
theorem toNat_advanceSequence (sequence : UInt32) :
    (advanceSequence sequence).toNat =
      if sequence.toNat = 0xFFFFFFFF then 0 else sequence.toNat + 1 := by
  have hmax : sequence = 0xFFFFFFFF ↔ sequence.toNat = 0xFFFFFFFF := UInt32.toNat_inj.symm
  rw [advanceSequence]
  by_cases h : sequence = 0xFFFFFFFF
  · rw [if_pos h, if_pos (hmax.mp h)]
    rfl
  · have hbound := sequence.toNat_lt
    have hne : sequence.toNat ≠ 0xFFFFFFFF := fun heq ↦ h (hmax.mpr heq)
    rw [if_neg h, if_neg hne, UInt32.toNat_add, UInt32.toNat_one]
    omega

variable {request : JournalRequest}

theorem Synced.replay_append (hsynced : Synced machine dataSectors records)
    {entry : JournalEntry} {files : List RamfsFile}
    (happly : applyListing entry (listing machine.store) = some files) :
    replayListing (records ++ [entry]) defaultListing = some files := by
  rw [replayListing_append, hsynced.replay]
  simp only [Option.bind_some, replayListing, happly]

/-- A record that is applied to the store and appended to the journal keeps the two in step. -/
theorem Synced.commit (hsynced : Synced machine dataSectors records)
    (hrequest : request.sequence = machine.persistent.nextSequence.toNat) {store : Store}
    (happly : applyListing request.entry (listing machine.store) = some (listing store))
    (hdriver : ata = { machine.ata with drive := ata.drive })
    (hholds : HoldsJournal ata.drive.disk (tailStart machine.ata)
      persistentJournalRegionSectors dataSectors (records ++ [request.entry])) :
    Synced
      { machine with
        ata := ata
        store := store
        persistent := { machine.persistent with
          nextSequence := advanceSequence machine.persistent.nextSequence } }
      dataSectors (records ++ [request.entry]) := by
  have hdurable := hsynced.toDurable.withDrive hdriver hholds
  rw [hdriver] at hdurable ⊢
  exact
    { toDurable := hdurable.congr rfl rfl
      enabled := hsynced.enabled
      regionStart := hsynced.regionStart
      window := ⟨hsynced.window.unprotected, hsynced.window.start, hsynced.window.length⟩
      replay := hsynced.replay_append happly
      nextSequence := by
        rw [lastSequence_append, toNat_advanceSequence, ← hrequest]
        rfl }

/-- What an append leaves on the drive: both writes and the read-back, each of which may fail. -/
theorem publishRecord_ata (hwell : ata.WellFormed) (hpresent : ata.devicePresent = true) {slot : ℕ}
    (hslot : slot < ata.sectors) (hadmits : windowAdmits ata slot 1 = true) (prepared : Sector) :
    publishRecord ataCallbacks slot prepared ata =
      if (ata.drive.writeFault ata.drive.writes).succeeds = false then
        (false, afterWrite slot prepared ata)
      else
        let committed := afterWrite slot (commitSector prepared) (afterWrite slot prepared ata)
        if (ata.drive.writeFault (ata.drive.writes + 1)).succeeds = false then (false, committed)
        else
          ((!ataModel.fails committed) && (journalDecode (commitSector prepared)).isSome,
            ataModel.next committed) := by
  rw [publishRecord, ataCallbacks_write hwell hadmits]
  cases hfirst : (ata.drive.writeFault ata.drive.writes).succeeds with
  | false => rfl
  | true =>
    have hwell' : (afterWrite slot prepared ata).WellFormed := ⟨hwell.lba48, hwell.lba28⟩
    have hadmits' : windowAdmits (afterWrite slot prepared ata) slot 1 = true := hadmits
    have hfault : (afterWrite slot prepared ata).drive.writeFault
        (afterWrite slot prepared ata).drive.writes =
        ata.drive.writeFault (ata.drive.writes + 1) := rfl
    simp only [Bool.true_eq_false, if_false]
    rw [ataCallbacks_write hwell' hadmits', hfault]
    cases hsecond : (ata.drive.writeFault (ata.drive.writes + 1)).succeeds with
    | false => rfl
    | true =>
      have hreadable : ataModel.readable
          (afterWrite slot (commitSector prepared) (afterWrite slot prepared ata)) slot :=
        ⟨⟨hwell.lba48, hwell.lba28⟩, hpresent, hslot⟩
      have hstored : ataModel.stored
          (afterWrite slot (commitSector prepared) (afterWrite slot prepared ata)) slot =
          commitSector prepared := by
        have hstores := WriteFault.stores_of_succeeds hsecond
        simp only [ataModel, afterWrite, hstores, if_true, Function.update_self]
      simp only [Bool.true_eq_false, if_false]
      rw [ataModel.read_eq _ _ hreadable, hstored]
      cases ataModel.fails
        (afterWrite slot (commitSector prepared) (afterWrite slot prepared ata)) with
      | true | false => rfl

/-- How many reads it takes to open the journal of a system with these records. -/
def journalReads (machine : Machine) (dataSectors : ℕ) (records : List JournalEntry) : ℕ :=
  openReads machine.ata.drive.disk (tailStart machine.ata) dataSectors records.length

/-- The slot of the next record. -/
def nextSlot (machine : Machine) (records : List JournalEntry) : ℕ :=
  tailStart machine.ata + 1 + records.length

theorem Synced.appendable (hsynced : Synced machine dataSectors records)
    (hsubmits : Submits machine request) (hroom : records.length < dataSectors) :
    Appendable dataSectors records request := by
  refine ⟨hroom, ?_, hsubmits.encodable⟩
  rw [hsubmits.sequence, hsynced.newer hsubmits.nonzero]
  exact Nat.lt_succ_self _

theorem Synced.slot_lt (hsynced : Synced machine dataSectors records)
    (hroom : records.length < dataSectors) :
    nextSlot machine records < machine.ata.sectors ∧
      windowAdmits machine.ata (nextSlot machine records) 1 = true := by
  have hfits : dataSectors + 1 ≤ persistentJournalRegionSectors := hsynced.holds.dataSectors_lt
  have hlarge := hsynced.large
  have hoffset : 1 + records.length < persistentJournalRegionSectors := by omega
  rw [nextSlot, Nat.add_assoc]
  refine ⟨?_, windowAdmits_of_open hsynced.window hsynced.present hlarge hoffset⟩
  unfold tailStart
  omega

/-- The drive of a system that has opened its journal. -/
def opened (machine : Machine) (dataSectors : ℕ) (records : List JournalEntry) : Ata :=
  { machine.ata with
    drive := { machine.ata.drive with
      reads := machine.ata.drive.reads + journalReads machine dataSectors records } }

/-- The drive after the first write of an append. -/
def afterPrepare (machine : Machine) (dataSectors : ℕ) (records : List JournalEntry)
    (request : JournalRequest) : Ata :=
  afterWrite (nextSlot machine records) request.preparedSector (opened machine dataSectors records)

/-- The drive after both writes of an append. -/
def afterCommit (machine : Machine) (dataSectors : ℕ) (records : List JournalEntry)
    (request : JournalRequest) : Ata :=
  afterWrite (nextSlot machine records) (commitSector request.preparedSector)
    (afterPrepare machine dataSectors records request)

section

variable (machine dataSectors records request)

theorem disk_afterPrepare :
    (afterPrepare machine dataSectors records request).drive.disk =
      if (machine.ata.drive.writeFault machine.ata.drive.writes).stores then
        Function.update machine.ata.drive.disk (nextSlot machine records) request.preparedSector
      else machine.ata.drive.disk := rfl

/-- Once the prepared sector is stored, the slot holds the sector of the last write stored. -/
theorem disk_afterCommit
    (hfirst : (machine.ata.drive.writeFault machine.ata.drive.writes).succeeds = true) :
    (afterCommit machine dataSectors records request).drive.disk =
      Function.update machine.ata.drive.disk (nextSlot machine records)
        (if (machine.ata.drive.writeFault (machine.ata.drive.writes + 1)).stores then
          commitSector request.preparedSector
        else request.preparedSector) := by
  rw [afterCommit, disk_afterWrite, disk_afterPrepare,
    if_pos (WriteFault.stores_of_succeeds hfirst), Function.update_idem]
  change (if (machine.ata.drive.writeFault (machine.ata.drive.writes + 1)).stores then _ else _) = _
  split_ifs
  · rfl
  · rfl

end

/-- An append that finds room and can read the journal publishes its record: the prepared sector,
the committed sector and the read-back, as far as the drive lets it. -/
theorem Synced.append_publishes (hsynced : Synced machine dataSectors records)
    (hsubmits : Submits machine request) (hroom : records.length < dataSectors)
    (hclean : ataModel.Clean (journalReads machine dataSectors records) machine.ata) :
    journalAppend ataCallbacks machine.persistent.regionStart persistentJournalRegionSectors
        request machine.ata =
      if (machine.ata.drive.writeFault machine.ata.drive.writes).succeeds = false then
        (false, afterPrepare machine dataSectors records request)
      else if (machine.ata.drive.writeFault (machine.ata.drive.writes + 1)).succeeds = false then
        (false, afterCommit machine dataSectors records request)
      else (!ataModel.fails (opened machine dataSectors records),
        ataModel.next (afterCommit machine dataSectors records request)) := by
  have hopened : opened machine dataSectors records =
      ataModel.advance (journalReads machine dataSectors records) machine.ata :=
    (ataModel_advance _ _).symm
  obtain ⟨hslot, hadmits⟩ := hsynced.slot_lt hroom
  have hwell : (opened machine dataSectors records).WellFormed :=
    ⟨hsynced.wellFormed.lba48, hsynced.wellFormed.lba28⟩
  rw [hsynced.regionStart, journalAppend_of_holds hsynced.readable hsynced.holds hclean
    (hsynced.appendable hsubmits hroom)]
  change publishRecord ataCallbacks (nextSlot machine records) request.preparedSector
    (ataModel.advance (journalReads machine dataSectors records) machine.ata) = _
  rw [← hopened, publishRecord_ata hwell hsynced.present hslot hadmits,
    journalDecode_commitSector hsubmits.encodable]
  simp only [Option.isSome_some, Bool.and_true]
  rfl

/-- A failed append leaves the store as it is; a successful one is applied. -/
theorem commitEntry_of_append {entry : JournalEntry} {files : List RamfsFile}
    (happly : applyListing entry (listing machine.store) = some files) {appended : Bool}
    (happend : journalAppend ataCallbacks machine.persistent.regionStart
      persistentJournalRegionSectors
      request machine.ata = (appended, ata)) :
    appended = false ∧ commitEntry request entry machine =
      (some false, { machine with ata := ata }) ∨
    appended = true ∧ ∃ store, listing store = files ∧ commitEntry request entry machine =
      (some true, { machine with
        ata := ata
        store := store
        persistent := { machine.persistent with
          nextSequence := advanceSequence machine.persistent.nextSequence } }) := by
  rw [commitEntry, happend]
  cases appended with
  | false => exact Or.inl ⟨rfl, rfl⟩
  | true =>
    refine Or.inr ⟨rfl, ?_⟩
    rcases ramfsApplyJournalEntry_spec entry machine.store with
      ⟨store, hstore, hlisting⟩ | ⟨-, hlisting⟩
    · rw [happly] at hlisting
      refine ⟨store, (Option.some.inj hlisting).symm, ?_⟩
      simp only [hstore, Prod.mk.injEq, Option.some.injEq, decide_eq_true_eq, and_true]
      exact (em _).symm
    · rw [happly] at hlisting
      cases hlisting

/-- A call whose record the journal does not take only reads. -/
theorem Durable.runCall_refused (hdurable : Durable machine dataSectors records)
    (hstart : machine.persistent.regionStart = tailStart machine.ata) {call : Call}
    (hrefused : ∀ request, callRequest machine call = some request →
      ataModel.Clean (journalReads machine dataSectors records) machine.ata →
      ¬Appendable dataSectors records request) :
    ∃ reads, runCall call machine =
      (some false, { machine with ata := ataModel.advance reads machine.ata }) := by
  cases hrequest : callRequest machine call with
  | none => exact ⟨0, runCall_of_none hrequest⟩
  | some request =>
    obtain ⟨hsubmits, happly, hcommit⟩ := runCall_of_some hrequest
    obtain ⟨reads, happend⟩ := journalAppend_refused hdurable.readable
      fun otherSectors others hother hclean happendable ↦ by
        obtain ⟨rfl, rfl⟩ := hdurable.holds.unique hother
        exact hrefused request hrequest hclean happendable
    rw [← hstart] at happend
    rcases commitEntry_of_append happly happend with ⟨-, hresult⟩ | ⟨htrue, -⟩
    · exact ⟨reads, hcommit.trans hresult⟩
    · cases htrue

/-- A call on a drive without faults is refused without a write, because it fails its checks or the
log is full, or it does what was asked for and keeps the live listing and the journal in step. -/
theorem runCall_step (hsynced : Synced machine dataSectors records)
    (hfree : FaultFree machine.ata.drive) (call : Call) :
    ((callRequest machine call = none ∨ ¬records.length < dataSectors) ∧
      ∃ reads, runCall call machine =
        (some false, { machine with ata := ataModel.advance reads machine.ata })) ∨
    ∃ after request, callRequest machine call = some request ∧
      runCall call machine = (some true, after) ∧
      listing after.store = callListing call (listing machine.store) ∧
      Synced after dataSectors (records ++ [request.entry]) ∧ FaultFree after.ata.drive := by
  by_cases hrefused : callRequest machine call = none ∨ ¬records.length < dataSectors
  · refine Or.inl ⟨hrefused, hsynced.runCall_refused hsynced.regionStart ?_⟩
    intro request hrequest _ happendable
    rcases hrefused with hnone | hfull
    · rw [hnone] at hrequest
      cases hrequest
    · exact hfull happendable.room
  · rw [not_or, not_not] at hrefused
    obtain ⟨hpasses, hroom⟩ := hrefused
    obtain ⟨request, hrequest⟩ := Option.ne_none_iff_exists'.mp hpasses
    obtain ⟨hsubmits, happly, hcommit⟩ := runCall_of_some hrequest
    have hclean := clean_of_faultFree hfree (journalReads machine dataSectors records)
    have happend := hsynced.append_publishes hsubmits hroom hclean
    have hfirst : (machine.ata.drive.writeFault machine.ata.drive.writes).succeeds = true := by
      rw [hfree.write]
      rfl
    have hdisk := disk_afterCommit machine dataSectors records request hfirst
    have hreadBack : ataModel.fails (opened machine dataSectors records) = false :=
      fails_of_faultFree ⟨hfree.read, hfree.write⟩
    simp only [hfree.write, WriteFault.succeeds, WriteFault.stores, Bool.true_eq_false, if_false,
      if_true, hreadBack, Bool.not_false] at happend hdisk
    rcases commitEntry_of_append happly happend with ⟨hfalse, -⟩ | ⟨-, store, hstore, hresult⟩
    · cases hfalse
    · have hholds := hsynced.holds.commit (hsynced.appendable hsubmits hroom)
      refine Or.inr ⟨_, request, hrequest, hcommit.trans hresult, hstore, ?_,
        ⟨hfree.read, hfree.write⟩⟩
      exact hsynced.commit hsubmits.sequence (hstore ▸ happly) rfl (hdisk ▸ hholds)

/-! ### Reboots -/

/-- The system on the same disk, with a drive that fails no more. -/
def repaired (machine : Machine) : Machine :=
  { machine with
    ata := { machine.ata with
      drive := { machine.ata.drive with
        readFault := fun _ _ ↦ false
        writeFault := fun _ ↦ .clear } } }

theorem faultFree_repaired (machine : Machine) : FaultFree (repaired machine).ata.drive :=
  ⟨fun _ _ ↦ rfl, fun _ ↦ rfl⟩

theorem Durable.repaired (hdurable : Durable machine dataSectors records) :
    Durable (repaired machine) dataSectors records :=
  hdurable.withDrive rfl hdurable.holds

theorem Synced.advance (hsynced : Synced machine dataSectors records) (reads : ℕ) :
    Synced { machine with ata := ataModel.advance reads machine.ata } dataSectors records := by
  refine hsynced.withDrive ?_ ?_
  · rw [ataModel_advance]
  · rw [(ataModel_advance_fields reads machine.ata).2.2]
    exact hsynced.holds

/-- A boot that opens the window leaves the live listing and the journal in step. -/
theorem synced_restored (hdurable : Durable machine dataSectors records) {store : Store}
    (hreplay : replayListing records defaultListing = some (listing store))
    (hlast : lastSequence 0 records ≠ 0xFFFFFFFF) :
    Synced (restored records store machine.ata machine.vfs) dataSectors records := by
  rw [restored, if_neg hlast]
  have hbound := hdurable.holds.log.lastSequence_lt (by decide)
  exact
    { wellFormed := ⟨hdurable.wellFormed.lba48, hdurable.wellFormed.lba28⟩
      present := hdurable.present
      large := hdurable.large
      available := hdurable.available
      holds := hdurable.holds
      enabled := rfl
      regionStart := rfl
      window := ⟨rfl, rfl, rfl⟩
      replay := hreplay
      nextSequence := by
        rw [if_neg hlast, UInt32.toNat_ofNat_of_lt']
        change lastSequence 0 records + 1 < 4294967296
        omega }

/-- A reboot of a system whose records can be replayed. -/
theorem reboot_of_durable (hdurable : Durable machine dataSectors records)
    (hfree : FaultFree machine.ata.drive) {files : List RamfsFile}
    (hreplay : replayListing records defaultListing = some files) :
    ∃ after, reboot machine = (true, after) ∧ listing after.store = files ∧
      (lastSequence 0 records ≠ 0xFFFFFFFF →
        Synced after dataSectors records ∧ FaultFree after.ata.drive) := by
  have hbooting : Durable { machine with store := ramfsInit machine.store } dataSectors records :=
    hdurable.congr rfl rfl
  have hclosed : FaultFree (ataDisableTransactionalWrites machine.ata).drive :=
    ⟨hfree.read, hfree.write⟩
  rcases applyRecords_listing records (ramfsInit machine.store) with
    ⟨store, happly, hlisting⟩ | ⟨-, hlisting⟩
  · rw [listing_ramfsInit, hreplay, Option.some.injEq] at hlisting
    obtain ⟨reads, hboot⟩ := persistentRamfsInit_of_durable hbooting hfree happly
    refine ⟨_, hboot, ?_, fun hlast ↦ ⟨?_, ?_⟩⟩
    · rw [hlisting, restored]
      split_ifs <;> rfl
    · exact synced_restored (hbooting.closed.advance reads) (hlisting ▸ hreplay) hlast
    · rw [restored, if_neg hlast]
      exact hclosed.advance reads
  · rw [listing_ramfsInit, hreplay] at hlisting
    cases hlisting

/-- Persistence is enabled by a boot only if the region holds a journal that can be replayed and
its sequence space is not exhausted. -/
theorem durable_of_enabled (hwell : machine.ata.WellFormed) (hfree : FaultFree machine.ata.drive)
    (henabled : (reboot machine).2.persistent.enabled = true) :
    ∃ dataSectors records files, Durable machine dataSectors records ∧
      replayListing records defaultListing = some files ∧
      lastSequence 0 records ≠ 0xFFFFFFFF := by
  have hsettles := @persistentRamfsInit_settles
    { machine with store := ramfsInit machine.store } hwell
  rw [reboot] at henabled
  obtain ⟨-, -, ⟨hdisabled, -⟩ | ⟨-, -, -, dataSectors, records, hfound⟩⟩ := hsettles
  · rw [hdisabled] at henabled
    cases henabled
  have hdurable : Durable machine dataSectors records :=
    ⟨⟨⟨hwell.lba48, hwell.lba28⟩, hfound.present, hfound.large, hfound.available⟩, hfound.holds⟩
  have hbooting : Durable { machine with store := ramfsInit machine.store } dataSectors records :=
    hdurable.congr rfl rfl
  refine ⟨dataSectors, records, ?_⟩
  rcases applyRecords_listing records (ramfsInit machine.store) with
    ⟨store, happly, hlisting⟩ | ⟨hrefused, -⟩
  · refine ⟨listing store, hdurable, listing_ramfsInit machine.store ▸ hlisting, fun hlast ↦ ?_⟩
    obtain ⟨reads, hboot⟩ := persistentRamfsInit_of_durable hbooting hfree happly
    rw [hboot, restored, if_pos hlast] at henabled
    cases henabled
  · rw [persistentRamfsInit_refused hbooting hfree hrefused] at henabled
    cases henabled

/-! ### Histories of calls -/

/-- Every history of calls keeps the live listing and the journal in step. -/
theorem runCalls_synced (hsynced : Synced machine dataSectors records)
    (hfree : FaultFree machine.ata.drive) (calls : List Call) :
    ∃ more, Synced (runCalls calls machine) dataSectors more ∧
      FaultFree (runCalls calls machine).ata.drive := by
  induction calls generalizing machine records with
  | nil => exact ⟨records, hsynced, hfree⟩
  | cons call calls ih =>
    rw [runCalls, List.foldl_cons]
    rcases runCall_step hsynced hfree call with
      ⟨-, reads, hrefused⟩ | ⟨after, request, -, hcall, -, hafter, hclear⟩
    · rw [hrefused]
      exact ih (hsynced.advance reads) (hfree.advance reads)
    · rw [hcall]
      exact ih hafter hclear

end Region

/-- On a drive without faults, from every disk that a boot enables persistence on, and after every
history of persistent calls: a reboot succeeds and yields the live files, and the next call never
panics and, when it is refused, changes neither the files nor the disk. -/
theorem persistent_calls_are_durable (identify : Option (ℕ → UInt16)) (machine : Machine)
    (calls : List Call) (hfree : FaultFree machine.ata.drive)
    (henabled : (reboot { machine with ata := ataInit identify machine.ata }).2.persistent.enabled =
      true) :
    let live := runCalls calls (reboot { machine with ata := ataInit identify machine.ata }).2
    (reboot live).1 = true ∧ listing (reboot live).2.store = listing live.store ∧
      ∀ call, (runCall call live).1 ≠ none ∧
        ((runCall call live).1 = some false →
          (runCall call live).2.store = live.store ∧
            (runCall call live).2.ata.drive.disk = live.ata.drive.disk) := by
  obtain ⟨hwell, -, hdrive, -⟩ := ataInit_cases identify machine.ata
  have hfree' : FaultFree (ataInit identify machine.ata).drive := hdrive ▸ hfree
  obtain ⟨dataSectors, records, files, hdurable, hreplay, hlast⟩ :=
    durable_of_enabled hwell hfree' henabled
  obtain ⟨booted, hboot, -, hrunning⟩ := reboot_of_durable hdurable hfree' hreplay
  rw [hboot]
  obtain ⟨more, hsynced, hclear⟩ :=
    runCalls_synced (hrunning hlast).1 (hrunning hlast).2 calls
  intro live
  obtain ⟨again, hagain, hfiles, -⟩ := reboot_of_durable hsynced.toDurable hclear hsynced.replay
  refine ⟨by rw [hagain], by rw [hagain, hfiles], fun call ↦ ?_⟩
  rcases runCall_step hsynced hclear call with ⟨-, reads, hrefused⟩ | ⟨after, request, -, hcall, -⟩
  · rw [hrefused]
    refine ⟨Option.some_ne_none _, fun _ ↦ ⟨rfl, ?_⟩⟩
    exact (ataModel_advance_fields reads live.ata).2.2
  · rw [hcall]
    exact ⟨Option.some_ne_none _, by simp⟩

/-- On a freshly formatted drive: a write, a refused write and a remove. -/
theorem persistent_calls_are_durable_formatted :
    let drive : Drive := ⟨formattedSectors, fun _ _ ↦ false, fun _ ↦ .clear, 0, 0, []⟩
    let booted := (reboot (smallMachine drive)).2
    let live := runCalls [.write (some (CString.ascii "A")) (some (CString.ascii "x")),
      .write (some (CString.ascii "a/b")) none, .remove (some (CString.ascii "EFES"))] booted
    (reboot live).1 = true ∧ listing (reboot live).2.store = listing live.store := by
  intro drive booted live
  have hfree : FaultFree drive := ⟨fun _ _ ↦ rfl, fun _ ↦ rfl⟩
  obtain ⟨after, hboot, -, hsynced⟩ :=
    reboot_of_durable (durable_smallMachine rfl) hfree rfl
  have henabled : (reboot (smallMachine drive)).2.persistent.enabled = true := by
    rw [hboot]
    exact (hsynced (by decide)).1.enabled
  obtain ⟨hreboot, hlisting, -⟩ :=
    persistent_calls_are_durable (some smallIdentify) (smallMachine drive) _ hfree henabled
  exact ⟨hreboot, hlisting⟩

end EfesOS.Fs.Persistent
