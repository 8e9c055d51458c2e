import EfesOS.Fs.Persistent.Durability

/-!
# Refused calls on a faulty drive

What a persistent call leaves when it returns zero because the drive failed it. The journal is as
before in every case but one: the commit write reached the disk and the failure was reported
afterwards, by the write itself or by the read-back (`HiddenCommit`). The record is then replayed at
the next boot although the call was refused, and until then its sequence is taken, so that the next
append is refused too.

`refused_call_leaves_no_trace_iff` says exactly when a refused call leaves no trace.
`commit_flush_failure_leaves_trace` is a run with a failed cache flush that does leave one.
`files_survive_faults` says what a whole history of calls leaves on such a drive.
-/

set_option autoImplicit false

namespace EfesOS.Fs.Persistent

open EfesOS.Foundation EfesOS.Drivers EfesOS.Fs.Journal EfesOS.Fs.Ramfs EfesOS.Fs.Vfs

/-- The journal on the disk has a free slot. -/
def LogHasRoom (machine : Machine) : Prop :=
  ∃ dataSectors records, Durable machine dataSectors records ∧ records.length < dataSectors

/-- A refused call left no trace: the files are as before, a reboot replays to them, and from then
on every call that passes its checks and finds a free slot succeeds. -/
structure LeavesNoTrace (before after : Machine) : Prop where
  store : after.store = before.store
  replay : (reboot (repaired after)).1 = true ∧
    listing (reboot (repaired after)).2.store = listing before.store
  later : ∀ calls call, (callRequest (runCalls calls (repaired after)) call).isSome →
    LogHasRoom (runCalls calls (repaired after)) →
    (runCall call (runCalls calls (repaired after))).1 = some true

/-- The append of a call reads the journal, finds room and stores its prepared sector and then its
committed sector, but the second write or the read-back reports a failure. -/
structure HiddenCommit (machine : Machine) (dataSectors : ℕ) (records : List JournalEntry) :
    Prop where
  room : records.length < dataSectors
  clean : ataModel.Clean (journalReads machine dataSectors records) machine.ata
  first : (machine.ata.drive.writeFault machine.ata.drive.writes).succeeds = true
  second : (machine.ata.drive.writeFault (machine.ata.drive.writes + 1)).stores = true
  reported : (machine.ata.drive.writeFault (machine.ata.drive.writes + 1)).succeeds = false ∨
    ataModel.fails (opened machine dataSectors records) = true

section Faults

variable {machine : Machine} {dataSectors : ℕ} {records : List JournalEntry} {call : Call}
  {request : JournalRequest}

theorem Synced.repaired (hsynced : Synced machine dataSectors records) :
    Synced (repaired machine) dataSectors records :=
  hsynced.withDrive rfl hsynced.holds

/-- The journal is one record ahead of the store, and the sequence of the next call is taken. -/
structure Ahead (machine : Machine) (dataSectors : ℕ) (records : List JournalEntry)
    (files : List RamfsFile) : Prop extends Durable machine dataSectors records where
  regionStart : machine.persistent.regionStart = tailStart machine.ata
  replay : replayListing records defaultListing = some files
  taken : machine.persistent.nextSequence.toNat = lastSequence 0 records

section Ahead

variable {files : List RamfsFile} (hahead : Ahead machine dataSectors records files)
include hahead

theorem Ahead.repaired : Ahead (repaired machine) dataSectors records files :=
  ⟨hahead.toDurable.repaired, hahead.regionStart, hahead.replay, hahead.taken⟩

/-- Until the next boot every call is refused. -/
theorem Ahead.runCall_refused (call : Call) :
    ∃ after, runCall call machine = (some false, after) ∧ after.store = machine.store ∧
      Ahead after dataSectors records files := by
  obtain ⟨reads, hrefused⟩ := hahead.toDurable.runCall_refused hahead.regionStart
    fun request (hrequest : callRequest machine call = some request) _ happendable ↦ by
      have hnewer := happendable.newer
      rw [(runCall_of_some hrequest).1.sequence, hahead.taken] at hnewer
      exact lt_irrefl _ hnewer
  exact ⟨_, hrefused, rfl, hahead.advance reads,
    hahead.regionStart.trans (tailStart_advance reads machine.ata).symm, hahead.replay,
    hahead.taken⟩

end Ahead

/-- The record of a call is in the journal and the call was not applied. -/
theorem Synced.ahead (hsynced : Synced machine dataSectors records)
    (hrequest : callRequest machine call = some request) {ata : Ata}
    (hdriver : ata = { machine.ata with drive := ata.drive })
    (hholds : HoldsJournal ata.drive.disk (tailStart machine.ata) persistentJournalRegionSectors
      dataSectors (records ++ [request.entry])) :
    Ahead { machine with ata := ata } dataSectors (records ++ [request.entry])
      (callListing call (listing machine.store)) := by
  obtain ⟨hsubmits, happly, -⟩ := runCall_of_some hrequest
  refine ⟨hsynced.toDurable.withDrive hdriver hholds, ?_, hsynced.replay_append happly, ?_⟩
  · rw [hdriver]
    exact hsynced.regionStart
  · rw [lastSequence_append]
    exact hsubmits.sequence.symm

/-! ### What the journal holds after a refused call -/

/-- What a call leaves on a drive with any faults: a refused call leaves the records of the journal
as they are, or adds its own and hides that, and an accepted call adds its own and is applied. -/
inductive Leaves (call : Call) (machine : Machine) (dataSectors : ℕ)
    (records : List JournalEntry) : Prop where
  | refused (hcall : (runCall call machine).1 = some false)
      (hnot : callRequest machine call ≠ none → ¬HiddenCommit machine dataSectors records)
      (hsynced : Synced (runCall call machine).2 dataSectors records)
      (hstore : (runCall call machine).2.store = machine.store)
  | hidden (request : JournalRequest) (hrequest : callRequest machine call = some request)
      (hhidden : HiddenCommit machine dataSectors records) (ata : Ata)
      (hcall : runCall call machine = (some false, { machine with ata := ata }))
      (hahead : Ahead { machine with ata := ata } dataSectors (records ++ [request.entry])
        (callListing call (listing machine.store)))
  | accepted (hcall : (runCall call machine).1 = some true)
      (hnot : ¬HiddenCommit machine dataSectors records)
      (hlisting : listing (runCall call machine).2.store =
        callListing call (listing machine.store))
      (more : List JournalEntry) (hsynced : Synced (runCall call machine).2 dataSectors more)

section

variable (hsynced : Synced machine dataSectors records)
include hsynced

theorem runCall_leaves (call : Call) :
    Leaves call machine dataSectors records := by
  by_cases hpublishes : callRequest machine call ≠ none ∧ records.length < dataSectors ∧
      ataModel.Clean (journalReads machine dataSectors records) machine.ata
  · obtain ⟨hpasses, hroom, hclean⟩ := hpublishes
    obtain ⟨request, hrequest⟩ := Option.ne_none_iff_exists'.mp hpasses
    obtain ⟨hsubmits, happly, hcommit⟩ := runCall_of_some hrequest
    have happend := hsynced.append_publishes hsubmits hroom hclean
    have hprepared := hsynced.holds.prepare (hsynced.appendable hsubmits hroom)
    have hcommitted := hsynced.holds.commit (hsynced.appendable hsubmits hroom)
    split_ifs at happend with hfirst hsecond
    · -- the prepared sector is not committed
      have hresult := hcommit.trans
        ((commitEntry_of_append happly happend).resolve_right (by simp)).2
      refine .refused (by rw [hresult]) (fun _ hhidden ↦ ?_) ?_ (by rw [hresult])
      · exact absurd hhidden.first (by simp [hfirst])
      · rw [hresult]
        refine hsynced.withDrive rfl ?_
        rw [disk_afterPrepare]
        split_ifs
        · exact hprepared
        · exact hsynced.holds
    all_goals
      rw [Bool.not_eq_false] at hfirst
      have hdisk := disk_afterCommit machine dataSectors records request hfirst
    · have hresult := hcommit.trans
        ((commitEntry_of_append happly happend).resolve_right (by simp)).2
      split_ifs at hdisk with hstored
      · exact .hidden request hrequest ⟨hroom, hclean, hfirst, hstored, .inl hsecond⟩ _ hresult
          (hsynced.ahead hrequest rfl (hdisk ▸ hcommitted))
      · refine .refused (by rw [hresult]) (fun _ hhidden ↦ hstored hhidden.second) ?_
          (by rw [hresult])
        rw [hresult]
        exact hsynced.withDrive rfl (hdisk ▸ hprepared)
    · rw [Bool.not_eq_false] at hsecond
      have hstored := WriteFault.stores_of_succeeds hsecond
      rw [if_pos hstored] at hdisk
      rcases commitEntry_of_append happly happend with
        ⟨hfails, hresult⟩ | ⟨hreads, store, hstore, hresult⟩
      · exact .hidden request hrequest
          ⟨hroom, hclean, hfirst, hstored, .inr (by simpa using hfails)⟩ _ (hcommit.trans hresult)
          (hsynced.ahead hrequest rfl (hdisk ▸ hcommitted))
      · have hcall := hcommit.trans hresult
        refine .accepted (by rw [hcall]) ?_ (by rw [hcall]; exact hstore)
          (records ++ [request.entry]) ?_
        · rintro ⟨-, -, -, -, hfailed | hfailed⟩
          · simp [hsecond] at hfailed
          · simp [hfailed] at hreads
        · rw [hcall]
          exact hsynced.commit hsubmits.sequence (hstore ▸ happly) rfl (hdisk ▸ hcommitted)
  · obtain ⟨reads, hresult⟩ := hsynced.runCall_refused hsynced.regionStart
      fun request hrequest hclean happendable ↦ hpublishes
        ⟨Option.ne_none_iff_exists'.mpr ⟨request, hrequest⟩, happendable.room, hclean⟩
    refine .refused (by rw [hresult]) (fun hpasses hhidden ↦ ?_) ?_ (by rw [hresult])
    · exact hpublishes ⟨hpasses, hhidden.room, hhidden.clean⟩
    · rw [hresult]
      exact hsynced.advance reads

/-- Short of a hidden commit, a refused call leaves the records of the journal as they are. -/
theorem refused_keeps_records
    (hrefused : (runCall call machine).1 = some false)
    (hnot : callRequest machine call ≠ none → ¬HiddenCommit machine dataSectors records) :
    Synced (runCall call machine).2 dataSectors records ∧
      (runCall call machine).2.store = machine.store := by
  cases runCall_leaves hsynced call with
  | refused hcall hvisible hkept hstore => exact ⟨hkept, hstore⟩
  | hidden request hrequest hhidden => exact absurd hhidden (hnot (by simp [hrequest]))
  | accepted hcall => simp [hcall] at hrefused

/-- A hidden commit refuses the call and adds its record to the journal. -/
theorem hiddenCommit_adds_record
    (hrequest : callRequest machine call = some request)
    (hhidden : HiddenCommit machine dataSectors records) :
    ∃ ata, runCall call machine = (some false, { machine with ata := ata }) ∧
      Ahead { machine with ata := ata } dataSectors (records ++ [request.entry])
        (callListing call (listing machine.store)) := by
  cases runCall_leaves hsynced call with
  | refused hcall hnot => exact absurd hhidden (hnot (by simp [hrequest]))
  | hidden other hother hcommit ata hcall hahead =>
    obtain rfl := Option.some.inj (hrequest.symm.trans hother)
    exact ⟨ata, hcall, hahead⟩
  | accepted hcall hnot => exact absurd hhidden hnot

end

/-! ### Traces -/

theorem leavesNoTrace_of_synced {after : Machine} (hsynced : Synced after dataSectors records)
    (hstore : after.store = machine.store) : LeavesNoTrace machine after := by
  have hrepaired := hsynced.repaired
  have hfree := faultFree_repaired after
  obtain ⟨booted, hboot, hlisting, -⟩ :=
    reboot_of_durable hrepaired.toDurable hfree hrepaired.replay
  refine ⟨hstore, ⟨by rw [hboot], ?_⟩, ?_⟩
  · rw [hboot, hlisting, ← hstore]
    rfl
  · rintro calls later hpasses ⟨otherSectors, others, hdurable, hroom⟩
    obtain ⟨more, hlive, hclear⟩ := runCalls_synced hrepaired hfree calls
    obtain ⟨rfl, rfl⟩ := hlive.holds.unique hdurable.holds
    rcases runCall_step hlive hclear later with
      ⟨hnone | hfull, -⟩ | ⟨next, request, -, hcall, -⟩
    · rw [hnone] at hpasses
      cases hpasses
    · exact absurd hroom hfull
    · rw [hcall]

/-- A full log stays as it is, whatever is called. -/
theorem Durable.runCalls_full (hdurable : Durable machine dataSectors records)
    (hstart : machine.persistent.regionStart = tailStart machine.ata)
    (hfull : ¬records.length < dataSectors) (calls : List Call) :
    Durable (runCalls calls machine) dataSectors records := by
  induction calls generalizing machine with
  | nil => exact hdurable
  | cons call calls ih =>
    obtain ⟨reads, hrefused⟩ := hdurable.runCall_refused hstart
      fun request (_ : callRequest machine call = some request) _ happendable ↦
        hfull happendable.room
    rw [runCalls, List.foldl_cons, hrefused]
    exact ih (hdurable.advance reads) (hstart.trans (tailStart_advance reads machine.ata).symm)

section

variable (hsynced : Synced machine dataSectors records)
  (hrequest : callRequest machine call = some request)
  (hhidden : HiddenCommit machine dataSectors records)
include hsynced hrequest hhidden

/-- The record of a hidden commit is replayed at the next boot and its sequence is taken. -/
theorem trace_of_hiddenCommit
    (hvisible : records.length + 1 < dataSectors ∨
      callListing call (listing machine.store) ≠ listing machine.store) :
    ¬LeavesNoTrace machine (runCall call machine).2 := by
  obtain ⟨ata, hcall, hahead⟩ := hiddenCommit_adds_record hsynced hrequest hhidden
  have hdurable := hahead.toDurable.repaired
  rw [hcall]
  intro hnone
  rcases hvisible with hroom | hchanges
  · -- The same call passes its checks again and is refused for its sequence.
    have hlog : LogHasRoom (repaired { machine with ata := ata }) :=
      ⟨dataSectors, _, hdurable, by simpa using hroom⟩
    have hagain : callRequest (repaired { machine with ata := ata }) call = some request := by
      rw [← hrequest]
      cases call with
      | write name contents | remove name => rfl
    obtain ⟨after, hrefused, -⟩ := hahead.repaired.runCall_refused call
    have hsucceeds := hnone.later [] call (by rw [runCalls, List.foldl_nil, hagain]; rfl) hlog
    rw [runCalls, List.foldl_nil, hrefused] at hsucceeds
    cases hsucceeds
  · obtain ⟨booted, hboot, hlisting, -⟩ :=
      reboot_of_durable hdurable (faultFree_repaired _) hahead.replay
    have hsame := hnone.replay.2
    rw [hboot, hlisting] at hsame
    exact hchanges hsame

/-- A hidden commit that takes the last slot with a record that changes nothing goes unnoticed. -/
theorem leavesNoTrace_of_last_slot (hlast : ¬records.length + 1 < dataSectors)
    (hsame : callListing call (listing machine.store) = listing machine.store) :
    LeavesNoTrace machine (runCall call machine).2 := by
  obtain ⟨ata, hcall, hahead⟩ := hiddenCommit_adds_record hsynced hrequest hhidden
  have hdurable := hahead.toDurable.repaired
  rw [hsame] at hahead
  obtain ⟨booted, hboot, hlisting, -⟩ :=
    reboot_of_durable hdurable (faultFree_repaired _) hahead.replay
  rw [hcall]
  refine ⟨rfl, ⟨by rw [hboot], by rw [hboot, hlisting]⟩, ?_⟩
  rintro calls later - ⟨otherSectors, others, hother, hroom⟩
  have hfull := hdurable.runCalls_full hahead.regionStart (by simpa using hlast) calls
  obtain ⟨rfl, rfl⟩ := hfull.holds.unique hother.holds
  rw [List.length_append, List.length_singleton] at hroom
  exact absurd hroom hlast

end

/-- A refused call leaves no trace exactly when its commit was not hidden, or was hidden in the last
slot by a record that changes nothing. -/
theorem refused_call_leaves_no_trace_iff (hsynced : Synced machine dataSectors records)
    (hrefused : (runCall call machine).1 = some false) :
    LeavesNoTrace machine (runCall call machine).2 ↔
      ¬(callRequest machine call ≠ none ∧ HiddenCommit machine dataSectors records ∧
        (records.length + 1 < dataSectors ∨
          callListing call (listing machine.store) ≠ listing machine.store)) := by
  constructor
  · rintro hnone ⟨hpasses, hhidden, hvisible⟩
    obtain ⟨request, hrequest⟩ := Option.ne_none_iff_exists'.mp hpasses
    exact trace_of_hiddenCommit hsynced hrequest hhidden hvisible hnone
  · intro hinvisible
    by_cases hhidden : callRequest machine call ≠ none ∧ HiddenCommit machine dataSectors records
    · obtain ⟨hpasses, hhidden⟩ := hhidden
      obtain ⟨request, hrequest⟩ := Option.ne_none_iff_exists'.mp hpasses
      refine leavesNoTrace_of_last_slot hsynced hrequest hhidden
        (fun hroom ↦ hinvisible ⟨hpasses, hhidden, Or.inl hroom⟩) ?_
      by_contra hchanges
      exact hinvisible ⟨hpasses, hhidden, Or.inr hchanges⟩
    · obtain ⟨hkept, hstore⟩ :=
        refused_keeps_records hsynced hrefused fun hpasses h ↦ hhidden ⟨hpasses, h⟩
      exact leavesNoTrace_of_synced hkept hstore

end Faults

/-! ### Two faults on a small drive -/

/-- A freshly formatted small drive whose write requests fail like this. -/
def faultyDrive (writeFault : ℕ → WriteFault) : Drive :=
  ⟨formattedSectors, fun _ _ ↦ false, writeFault, 0, 0, []⟩

/-- The system with that drive after its boot. -/
def faultyMachine (writeFault : ℕ → WriteFault) : Machine :=
  restored [] (ramfsInit emptyStore) (smallMachine (faultyDrive writeFault)).ata
    (smallMachine (faultyDrive writeFault)).vfs

theorem synced_faultyMachine (writeFault : ℕ → WriteFault) :
    Synced (faultyMachine writeFault) 64 [] := by
  refine synced_restored (durable_smallMachine rfl) ?_ (by decide)
  rfl

theorem clean_faultyMachine (writeFault : ℕ → WriteFault) (reads : ℕ) :
    ataModel.Clean reads (faultyMachine writeFault).ata := by
  intro index _
  rw [ataModel_advance]
  rfl

/-- A call that writes the file `A`. -/
def sampleCall : Call := .write (some (CString.ascii "A")) (some (CString.ascii "x"))

theorem callRequest_sampleCall (writeFault : ℕ → WriteFault) :
    callRequest (faultyMachine writeFault) sampleCall =
      some (writeRequest 1 (some (CString.ascii "A")) (some (CString.ascii "x")) 1) := rfl

/-- The cache flush of the commit write fails: the call is refused and the record stays. -/
theorem commit_flush_failure_leaves_trace :
    let machine := faultyMachine fun request ↦ if request = 1 then .flush else .clear
    Synced machine 64 [] ∧ (runCall sampleCall machine).1 = some false ∧
      ¬LeavesNoTrace machine (runCall sampleCall machine).2 := by
  intro machine
  have hsynced : Synced machine 64 [] := synced_faultyMachine _
  have hhidden : HiddenCommit machine 64 [] :=
    ⟨by decide, clean_faultyMachine _ _, rfl, rfl, Or.inl rfl⟩
  have hrequest := callRequest_sampleCall fun request ↦ if request = 1 then .flush else .clear
  obtain ⟨ata, hcall, -⟩ := hiddenCommit_adds_record hsynced hrequest hhidden
  refine ⟨hsynced, by rw [hcall], ?_⟩
  exact trace_of_hiddenCommit hsynced hrequest hhidden (Or.inl (by decide))

/-- The prepare write fails with the new bytes in place: the call leaves no trace. -/
theorem prepare_failure_leaves_no_trace :
    let machine := faultyMachine fun request ↦ if request = 0 then .sector 0 true else .clear
    LeavesNoTrace machine (runCall sampleCall machine).2 := by
  intro machine
  have hsynced : Synced machine 64 [] := synced_faultyMachine _
  have hrequest := callRequest_sampleCall fun request ↦
    if request = 0 then .sector 0 true else .clear
  obtain ⟨hsubmits, -, hcommit⟩ := runCall_of_some hrequest
  have happend := hsynced.append_publishes hsubmits (by decide) (clean_faultyMachine _ _)
  have hfirst : (machine.ata.drive.writeFault machine.ata.drive.writes).succeeds = false := rfl
  rw [if_pos hfirst] at happend
  have hrefused : (runCall sampleCall machine).1 = some false := by
    rw [hcommit, commitEntry, happend]
  refine (refused_call_leaves_no_trace_iff hsynced hrefused).mpr ?_
  rintro ⟨-, hhidden, -⟩
  exact absurd hhidden.first (by rw [hfirst]; decide)

/-! ### Histories on a faulty drive -/

section Histories

variable {machine : Machine} {dataSectors : ℕ} {records : List JournalEntry} {calls : List Call}

theorem runCalls_concat (calls : List Call) (call : Call) (machine : Machine) :
    runCalls (calls ++ [call]) machine = (runCall call (runCalls calls machine)).2 :=
  List.foldl_append

/-- Until the next boot the journal stays ahead. -/
theorem Ahead.runCalls {files : List RamfsFile} (hahead : Ahead machine dataSectors records files)
    (more : List Call) : Ahead (runCalls more machine) dataSectors records files := by
  induction more using List.reverseRecOn with
  | nil => exact hahead
  | append_singleton more call ih =>
    obtain ⟨after, hrefused, -, hafter⟩ := ih.runCall_refused call
    rw [runCalls_concat, hrefused]
    exact hafter

/-- A call was made among these and refused. -/
def RefusedAmong (calls : List Call) (start : Machine) (call : Call) : Prop :=
  ∃ earlier later, calls = earlier ++ call :: later ∧
    (runCall call (runCalls earlier start)).1 = some false

/-- After some calls the journal is in step with the store or one refused call ahead of it. -/
inductive Tracks (calls : List Call) (start : Machine) (dataSectors : ℕ) : Prop where
  | synced (records : List JournalEntry)
      (hsynced : Synced (runCalls calls start) dataSectors records)
  | ahead (call : Call) (hcall : RefusedAmong calls start call) (records : List JournalEntry)
      (hahead : Ahead (runCalls calls start) dataSectors records
        (callListing call (listing (runCalls calls start).store)))

/-- What one more call answers and leaves. -/
theorem Tracks.runCall (htracks : Tracks calls machine dataSectors) (call : Call) :
    let live := runCalls calls machine
    ((runCall call live).1 = some true ∧
        listing (runCall call live).2.store = callListing call (listing live.store) ∨
      (runCall call live).1 = some false ∧ (runCall call live).2.store = live.store) ∧
    Tracks (calls ++ [call]) machine dataSectors := by
  have hconcat := runCalls_concat calls call machine
  cases htracks with
  | synced records hsynced =>
    cases runCall_leaves hsynced call with
    | refused hcall hnot hkept hstore =>
      exact ⟨.inr ⟨hcall, hstore⟩, .synced records (hconcat ▸ hkept)⟩
    | accepted hcall hnot hlisting more hafter =>
      exact ⟨.inl ⟨hcall, hlisting⟩, .synced more (hconcat ▸ hafter)⟩
    | hidden request hrequest hhidden ata hcall hahead =>
      refine ⟨.inr (by rw [hcall]; exact ⟨rfl, rfl⟩),
        .ahead call ⟨calls, [], rfl, by rw [hcall]⟩ (records ++ [request.entry]) ?_⟩
      rw [hconcat, hcall]
      exact hahead
  | ahead hidden hamong records hahead =>
    obtain ⟨after, hrefused, hstore, hafter⟩ := hahead.runCall_refused call
    obtain ⟨earlier, later, rfl, hwas⟩ := hamong
    refine ⟨.inr (by rw [hrefused]; exact ⟨rfl, hstore⟩),
      .ahead hidden ⟨earlier, later ++ [call], by simp, hwas⟩ records ?_⟩
    rw [hconcat, hrefused, hstore]
    exact hafter

theorem runCalls_tracks (hsynced : Synced machine dataSectors records) (calls : List Call) :
    Tracks calls machine dataSectors := by
  induction calls using List.reverseRecOn with
  | nil => exact .synced records hsynced
  | append_singleton calls call ih => exact (ih.runCall call).2

/-- On a drive with any faults, after any calls: the next call is acknowledged and applied or
refused and leaves the files alone, and a reboot on a drive that fails no more restores the files,
or the files with one refused call on top; then every call up to the reboot is refused. -/
theorem files_survive_faults (hsynced : Synced machine dataSectors records) (calls : List Call) :
    let live := runCalls calls machine
    let restarted := reboot (repaired live)
    (∀ call, (runCall call live).1 = some true ∧
        listing (runCall call live).2.store = callListing call (listing live.store) ∨
      (runCall call live).1 = some false ∧ (runCall call live).2.store = live.store) ∧
    restarted.1 = true ∧ (listing restarted.2.store = listing live.store ∨
      (∃ call, RefusedAmong calls machine call ∧
        listing restarted.2.store = callListing call (listing live.store)) ∧
      ∀ more call, (runCall call (runCalls more live)).1 = some false) := by
  have htracks := runCalls_tracks hsynced calls
  refine ⟨fun call ↦ (htracks.runCall call).1, ?_⟩
  cases htracks with
  | synced more hlive =>
    obtain ⟨booted, hboot, hfiles, -⟩ :=
      reboot_of_durable hlive.repaired.toDurable (faultFree_repaired _) hlive.replay
    rw [hboot]
    exact ⟨rfl, .inl hfiles⟩
  | ahead hidden hamong records hahead =>
    obtain ⟨booted, hboot, hfiles, -⟩ :=
      reboot_of_durable hahead.toDurable.repaired (faultFree_repaired _) hahead.replay
    rw [hboot]
    refine ⟨rfl, .inr ⟨⟨hidden, hamong, hfiles⟩, fun more call ↦ ?_⟩⟩
    obtain ⟨after, hrefused, -⟩ := (hahead.runCalls more).runCall_refused call
    rw [hrefused]

end Histories

/-- A write whose commit is stored and then reported as failed: the file `A` is not there until the
reboot and then it is, and the next call is refused. -/
theorem files_survive_faults_flush :
    let machine := faultyMachine fun request ↦ if request = 1 then .flush else .clear
    let live := runCalls [sampleCall] machine
    Synced machine 64 [] ∧ listing live.store = defaultListing ∧
      listing (reboot (repaired live)).2.store =
        defaultListing ++ [.copy (CString.ascii "A") (CString.ascii "x")] ∧
      (runCall sampleCall live).1 = some false := by
  intro machine
  have hsynced : Synced machine 64 [] := synced_faultyMachine _
  have hhidden : HiddenCommit machine 64 [] :=
    ⟨by decide, clean_faultyMachine _ _, rfl, rfl, Or.inl rfl⟩
  have hrequest := callRequest_sampleCall fun request ↦ if request = 1 then .flush else .clear
  obtain ⟨ata, hcall, hahead⟩ := hiddenCommit_adds_record hsynced hrequest hhidden
  have hlisting : listing machine.store = defaultListing := listing_ramfsInit _
  have hlive : runCalls [sampleCall] machine = { machine with ata := ata } := by
    rw [runCalls, List.foldl_cons, List.foldl_nil, hcall]
  have hwritten : callListing sampleCall defaultListing =
      defaultListing ++ [.copy (CString.ascii "A") (CString.ascii "x")] := by decide
  obtain ⟨booted, hboot, hfiles, -⟩ :=
    reboot_of_durable hahead.toDurable.repaired (faultFree_repaired _) hahead.replay
  rw [hlisting, hwritten] at hfiles
  obtain ⟨-, -, hrestarted⟩ := files_survive_faults hsynced [sampleCall]
  rw [hlive, hboot, hfiles] at hrestarted
  rw [hlive]
  rcases hrestarted with hsame | ⟨-, hrefused⟩
  · rw [hlisting] at hsame
    simp at hsame
  · exact ⟨hsynced, hlisting, by rw [hboot, hfiles], hrefused [] sampleCall⟩

end EfesOS.Fs.Persistent
