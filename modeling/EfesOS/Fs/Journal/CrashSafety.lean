import EfesOS.Fs.Journal.Log

/-!
# Crash safety of the journal

The log on a disk that can lose power. One-sector writes are atomic and reads return the stored
bytes; a call of `journal_append` gets a budget of writes, and the power fails at the first write
beyond it. A budget of zero cuts the call before its first write, a budget of one between its two
writes, and any other budget lets both reach the disk.

`crashAppend_step` says what one such call leaves behind: the records as they were, or the records
with the one of the call when its second write reached the disk. `runAppends_spec` carries this
over every history of calls, and `journal_crash_safety` reads off what a replay and a later append
see.
-/

set_option autoImplicit false

namespace EfesOS.Fs.Journal

open EfesOS.Foundation

universe v

/-- A disk with the number of writes left before the power fails, and the addresses of the writes
that reached it. -/
structure PowerDisk where
  sectors : ℕ → Sector
  budget : ℕ
  written : List ℕ

/-- Reads return the stored bytes. A write within the budget replaces its sector; the write at
which the power fails leaves the disk as it is and ends the call. -/
def powerIO : SectorIO PowerDisk Sector where
  read lba disk := (some (disk.sectors lba), disk)
  write lba sector disk :=
    match disk.budget with
    | 0 => (false, disk)
    | budget + 1 =>
      (true, ⟨Function.update disk.sectors lba sector, budget, disk.written ++ [lba]⟩)

def powerModel : ReadModel powerIO where
  stored := PowerDisk.sectors
  readable _ _ := True
  fails _ := false
  next := id
  read_eq _ _ _ := rfl
  stored_next _ := rfl
  readable_next _ := rfl

/-- A call of `journal_append` and the number of its writes the power lasts for. -/
structure AppendCall where
  request : JournalRequest
  writes : ℕ

/-- The disk after a call that may be cut off. -/
def crashAppend (startLba sectorCount : ℕ) (call : AppendCall) (disk : PowerDisk) : PowerDisk :=
  (journalAppend powerIO startLba sectorCount call.request { disk with budget := call.writes }).2

def runAppends (startLba sectorCount : ℕ) (calls : List AppendCall) (disk : PowerDisk) :
    PowerDisk :=
  calls.foldl (fun disk call ↦ crashAppend startLba sectorCount call disk) disk

/-- The records of the calls whose second write reached the disk. -/
def committedEntries (startLba sectorCount : ℕ) : List AppendCall → PowerDisk → List JournalEntry
  | [], _ => []
  | call :: calls, disk =>
    let after := crashAppend startLba sectorCount call disk
    (if after.written.length = disk.written.length + 2 then [call.request.entry] else []) ++
      committedEntries startLba sectorCount calls after

@[simp]
theorem powerModel_advance (reads : ℕ) (disk : PowerDisk) :
    powerModel.advance reads disk = disk := by
  induction reads with
  | zero => rfl
  | succ reads ih => exact ih

theorem powerModel_clean (reads : ℕ) (disk : PowerDisk) : powerModel.Clean reads disk :=
  fun _ _ ↦ rfl

theorem regionReadable_power (startLba sectorCount : ℕ) (disk : PowerDisk) :
    RegionReadable powerModel disk startLba sectorCount :=
  fun _ _ ↦ trivial

/-! ### One call -/

/-- Everything written between two disks lies in the data sectors of the region. -/
structure Confined (startLba dataSectors : ℕ) (before after : PowerDisk) : Prop where
  written : ∀ lba ∈ after.written,
    lba ∈ before.written ∨ startLba + 1 ≤ lba ∧ lba ≤ startLba + dataSectors
  frame : ∀ lba, ¬(startLba + 1 ≤ lba ∧ lba ≤ startLba + dataSectors) →
    after.sectors lba = before.sectors lba

variable {startLba dataSectors : ℕ}

theorem Confined.refl (before : PowerDisk) (budget : ℕ) :
    Confined startLba dataSectors before { before with budget := budget } :=
  ⟨fun _ h ↦ Or.inl h, fun _ _ ↦ rfl⟩

theorem Confined.trans {first second third : PowerDisk}
    (hfirst : Confined startLba dataSectors first second)
    (hsecond : Confined startLba dataSectors second third) :
    Confined startLba dataSectors first third where
  written lba hlba := (hsecond.written lba hlba).elim (hfirst.written lba) Or.inr
  frame lba hlba := (hsecond.frame lba hlba).trans (hfirst.frame lba hlba)

/-- A write to a data sector is confined. -/
theorem Confined.write {before after : PowerDisk}
    (hconfined : Confined startLba dataSectors before after) {lba : ℕ}
    (hlba : startLba + 1 ≤ lba ∧ lba ≤ startLba + dataSectors) (sector : Sector) (budget : ℕ) :
    Confined startLba dataSectors before
      ⟨Function.update after.sectors lba sector, budget, after.written ++ [lba]⟩ where
  written other hother := by
    rcases List.mem_append.mp hother with hold | hnew
    · exact hconfined.written other hold
    · rw [List.mem_singleton.mp hnew]
      exact Or.inr hlba
  frame other hother := by
    have hne : other ≠ lba := by
      rintro rfl
      exact hother hlba
    exact (Function.update_of_ne hne _ _).trans (hconfined.frame other hother)

section Step

variable {startLba sectorCount dataSectors : ℕ} {records : List JournalEntry} {disk : PowerDisk}

/-- The two writes of an append under a budget. -/
theorem publishRecord_power (lba : ℕ) (prepared : Sector) (disk : PowerDisk) :
    publishRecord powerIO lba prepared disk =
      match disk.budget with
      | 0 => (false, disk)
      | 1 => (false, ⟨Function.update disk.sectors lba prepared, 0, disk.written ++ [lba]⟩)
      | budget + 2 => ((journalDecode (commitSector prepared)).isSome,
          ⟨Function.update disk.sectors lba (commitSector prepared), budget,
            disk.written ++ [lba] ++ [lba]⟩) := by
  rcases disk with ⟨sectors, budget, written⟩
  match budget with
  | 0 | 1 => rfl
  | budget + 2 => simp [publishRecord, powerIO, Function.update_idem]

/-- An append to a region that holds a journal, whatever its budget. -/
theorem journalAppend_power (request : JournalRequest)
    (hholds : HoldsJournal disk.sectors startLba sectorCount dataSectors records) :
    (Appendable dataSectors records request ∧
      journalAppend powerIO startLba sectorCount request disk =
        publishRecord powerIO (startLba + 1 + records.length) request.preparedSector disk) ∨
    (¬Appendable dataSectors records request ∧
      journalAppend powerIO startLba sectorCount request disk = (false, disk)) := by
  have hreadable := regionReadable_power startLba sectorCount disk
  by_cases happendable : Appendable dataSectors records request
  · refine Or.inl ⟨happendable, ?_⟩
    rw [journalAppend_of_holds hreadable hholds (powerModel_clean _ _) happendable,
      powerModel_advance]
  · refine Or.inr ⟨happendable, ?_⟩
    have hrefused : ∀ otherSectors others,
        HoldsJournal disk.sectors startLba sectorCount otherSectors others →
        powerModel.Clean (openReads disk.sectors startLba otherSectors others.length) disk →
        ¬Appendable otherSectors others request := by
      intro otherSectors others hother _
      obtain ⟨rfl, rfl⟩ := hholds.unique hother
      exact happendable
    obtain ⟨reads, hreads⟩ := journalAppend_refused hreadable hrefused
    rw [hreads, powerModel_advance]

/-- What a call that may be cut off leaves behind. -/
theorem crashAppend_step (call : AppendCall)
    (hholds : HoldsJournal disk.sectors startLba sectorCount dataSectors records) :
    HoldsJournal (crashAppend startLba sectorCount call disk).sectors startLba sectorCount
      dataSectors (records ++ committedEntries startLba sectorCount [call] disk) ∧
    Confined startLba dataSectors disk (crashAppend startLba sectorCount call disk) := by
  have hbudget : HoldsJournal { disk with budget := call.writes }.sectors startLba sectorCount
      dataSectors records := hholds
  simp only [committedEntries, List.append_nil]
  unfold crashAppend
  rcases journalAppend_power call.request hbudget with ⟨happendable, heq⟩ | ⟨-, heq⟩
  · have hslot : startLba + 1 ≤ startLba + 1 + records.length ∧
        startLba + 1 + records.length ≤ startLba + dataSectors := by
      have hroom := happendable.room
      omega
    rw [heq, publishRecord_power]
    match call.writes with
    | 0 => simpa using And.intro hholds (Confined.refl disk 0)
    | 1 =>
      refine ⟨?_, (Confined.refl disk 0).write hslot _ _⟩
      simpa using hholds.prepare happendable
    | writes + 2 =>
      have hfirst := (Confined.refl disk 0).write hslot call.request.preparedSector 0
      refine ⟨?_, ?_⟩
      · simpa using hholds.commit happendable
      · simpa using hfirst.write hslot (commitSector call.request.preparedSector) writes
  · rw [heq]
    simpa using And.intro hholds (Confined.refl disk call.writes)

/-- Every history of calls extends the records by those of the calls whose second write reached
the disk. -/
theorem runAppends_spec (calls : List AppendCall)
    (hholds : HoldsJournal disk.sectors startLba sectorCount dataSectors records) :
    HoldsJournal (runAppends startLba sectorCount calls disk).sectors startLba sectorCount
      dataSectors (records ++ committedEntries startLba sectorCount calls disk) ∧
    Confined startLba dataSectors disk (runAppends startLba sectorCount calls disk) := by
  induction calls generalizing disk records with
  | nil =>
    rw [committedEntries, List.append_nil]
    exact ⟨hholds, Confined.refl disk disk.budget⟩
  | cons call calls ih =>
    obtain ⟨hstep, hconfined⟩ := crashAppend_step call hholds
    obtain ⟨hrun, hrest⟩ := ih hstep
    refine ⟨?_, hconfined.trans hrest⟩
    simpa [committedEntries, runAppends] using hrun

end Step

/-! ### Histories of calls -/

/-- The records decoded from the first `count` data sectors of a region. -/
def decodedRecords (stored : ℕ → Sector) (startLba count : ℕ) : List JournalEntry :=
  (logSectors stored startLba count).filterMap journalDecode

theorem IsLog.filterMap_decode {previous : ℕ} {sectors : List Sector}
    {records : List JournalEntry} (hlog : IsLog previous sectors records) :
    (sectors.take records.length).filterMap journalDecode = records := by
  induction hlog with
  | full | empty | torn => rfl
  | record hrecord _ ih =>
    rw [List.length_cons, List.take_succ_cons,
      List.filterMap_cons_some (recordAfter_eq_some_iff.mp hrecord).1, ih]

theorem decodedRecords_of_holds {stored : ℕ → Sector} {sectorCount : ℕ}
    {records : List JournalEntry}
    (hholds : HoldsJournal stored startLba sectorCount dataSectors records) :
    decodedRecords stored startLba records.length = records := by
  have htake : logSectors stored startLba records.length =
      (logSectors stored startLba dataSectors).take records.length := by
    apply List.ext_getElem
    · simp [hholds.length_le]
    · intro index _ _
      simp [logSectors, dataSectorsFrom]
  rw [decodedRecords, htake, hholds.log.filterMap_decode]

theorem applyRecords_of_accepts {τ : Type v} {apply : JournalEntry → τ → Bool × τ}
    (haccepts : ∀ entry consumer, (apply entry consumer).1 = true)
    (records : List JournalEntry) (consumer : τ) :
    applyRecords apply records consumer =
      (true, records.foldl (fun consumer entry ↦ (apply entry consumer).2) consumer) := by
  induction records generalizing consumer with
  | nil => rfl
  | cons entry records ih =>
    have happly : apply entry consumer = (true, (apply entry consumer).2) :=
      Prod.ext (haccepts entry consumer) rfl
    rw [applyRecords, happly]
    exact ih _

/-- What a history of calls leaves on a region with these records. -/
structure CrashSafe (startLba sectorCount dataSectors : ℕ) (before final : PowerDisk)
    (records : List JournalEntry) : Prop where
  /-- A consumer that accepts every record is handed exactly these, in order. -/
  replay : ∀ {τ : Type v} (apply : JournalEntry → τ → Bool × τ) (consumer : τ),
    (∀ entry consumer, (apply entry consumer).1 = true) →
    journalReplay powerIO apply startLba sectorCount final consumer =
      (some records.length, final,
        records.foldl (fun consumer entry ↦ (apply entry consumer).2) consumer)
  /-- A further append with a newer sequence commits its record in the first free slot, whatever a
  torn append left there. -/
  append : ∀ (request : JournalRequest) (budget : ℕ), request.Encodable →
    lastSequence 0 records < request.sequence → records.length < dataSectors →
    ∃ after,
      journalAppend powerIO startLba sectorCount request { final with budget := budget + 2 } =
        (true, after) ∧
      journalDecode (after.sectors (startLba + 1 + records.length)) = some request.entry
  /-- Only data sectors are written. -/
  written : ∀ lba ∈ final.written, startLba + 1 ≤ lba ∧ lba ≤ startLba + dataSectors
  /-- Every other sector keeps its bytes. -/
  frame : ∀ lba, ¬(startLba + 1 ≤ lba ∧ lba ≤ startLba + dataSectors) →
    final.sectors lba = before.sectors lba

/-- Crash safety of the journal. Assumes: a region of legal size whose superblock decodes and whose
log a scan accepts, and a history of appends any of which the power may cut off. The records are
those the scan counted, followed by those of the appends whose second write reached the disk. -/
theorem journal_crash_safety {startLba sectorCount dataSectors count last : ℕ} {disk : PowerDisk}
    (htwo : 2 ≤ sectorCount) (hmaximum : sectorCount ≤ 1025)
    (hfits : regionFits startLba sectorCount = true)
    (hsuperblock : journalSuperblockDecode (disk.sectors startLba) = some dataSectors)
    (hroom : dataSectors + 1 ≤ sectorCount)
    (hscan : (scanLog powerIO startLba dataSectors disk).1 = some (count, last))
    (hfresh : disk.written = []) (calls : List AppendCall) :
    CrashSafe.{v} startLba sectorCount dataSectors disk (runAppends startLba sectorCount calls disk)
      (decodedRecords disk.sectors startLba count ++
        committedEntries startLba sectorCount calls disk) := by
  have hdata : Readable powerModel disk startLba 0 dataSectors := fun _ _ _ ↦ trivial
  obtain ⟨records, hlog, -, hresult⟩ := (scanLog_eq_some_iff hdata).mp hscan
  have hbefore : HoldsJournal disk.sectors startLba sectorCount dataSectors records :=
    ⟨htwo, hmaximum, hfits, hsuperblock, hroom, hlog⟩
  obtain rfl : count = records.length := congrArg Prod.fst hresult
  rw [decodedRecords_of_holds hbefore]
  obtain ⟨hholds, hconfined⟩ := runAppends_spec calls hbefore
  generalize runAppends startLba sectorCount calls disk = final at hholds hconfined ⊢
  generalize records ++ committedEntries startLba sectorCount calls disk = more at hholds ⊢
  refine ⟨?_, ?_, ?_, hconfined.frame⟩
  · intro τ apply consumer haccepts
    obtain ⟨reads, hreads⟩ := journalReplay_of_holds
      (regionReadable_power startLba _ final) apply consumer hholds (powerModel_clean _ _)
    rw [hreads, applyRecords_of_accepts haccepts, powerModel_advance]
    rfl
  · intro request budget hencodable hnewer hslot
    have happendable : Appendable dataSectors more request := ⟨hslot, hnewer, hencodable⟩
    have hpowered : HoldsJournal { final with budget := budget + 2 }.sectors startLba sectorCount
        dataSectors more := hholds
    rcases journalAppend_power request hpowered with ⟨-, heq⟩ | ⟨hnot, -⟩
    · rw [heq, publishRecord_power]
      simp only [journalDecode_commitSector hencodable, Option.isSome_some]
      refine ⟨_, rfl, ?_⟩
      simp only [Function.update_self]
      exact journalDecode_commitSector hencodable
    · exact absurd happendable hnot
  · intro lba hlba
    refine (hconfined.written lba hlba).resolve_left ?_
    rw [hfresh]
    exact List.not_mem_nil

/-- A disk with a freshly formatted journal in its first sectors. -/
def formattedDisk (dataSectors : ℕ) : PowerDisk where
  sectors := Function.update (fun _ ↦ Buffer.zeroed 512) 0
    ((journalSuperblockEncode dataSectors).getD (Buffer.zeroed 512))
  budget := 0
  written := []

theorem formattedDisk_holds (hpositive : 0 < dataSectors) (hbound : dataSectors ≤ 1024) :
    HoldsJournal (formattedDisk dataSectors).sectors 0 (dataSectors + 1) dataSectors [] := by
  obtain ⟨superblock, hsuperblock⟩ :=
    Option.isSome_iff_exists.mp (journalSuperblockEncode_isSome hpositive hbound)
  refine .of_empty (by omega) (by omega) (by simp [regionFits]) ?_ le_rfl ?_
  · rw [formattedDisk, hsuperblock]
    exact journalSuperblockDecode_encode hsuperblock
  · intro index _
    have hne : 0 + 1 + index ≠ 0 := by omega
    simp only [formattedDisk, Function.update_of_ne hne]

/-- A request to write an empty file of the one-letter name `A`. -/
def sampleRequest (sequence : ℕ) (hsequence : sequence < 4294967296) : JournalRequest :=
  ⟨journalOperationWrite, sequence, some [0x41], none, 0, hsequence⟩

/-- On a log with one slot: an append cut off between its writes, one cut off before them, and one
that completes. -/
theorem journal_crash_safety_one_slot :
    CrashSafe.{0} 0 2 1 (formattedDisk 1)
      (runAppends 0 2 [⟨sampleRequest 7 (by decide), 1⟩, ⟨sampleRequest 8 (by decide), 0⟩,
        ⟨sampleRequest 3 (by decide), 2⟩] (formattedDisk 1))
      (decodedRecords (formattedDisk 1).sectors 0 0 ++
        committedEntries 0 2 [⟨sampleRequest 7 (by decide), 1⟩, ⟨sampleRequest 8 (by decide), 0⟩,
          ⟨sampleRequest 3 (by decide), 2⟩] (formattedDisk 1)) := by
  have hholds : HoldsJournal (formattedDisk 1).sectors 0 2 1 [] :=
    formattedDisk_holds (by decide) (by decide)
  have hdata : Readable powerModel (formattedDisk 1) 0 0 1 := fun _ _ _ ↦ trivial
  have hscan : (scanLog powerIO 0 1 (formattedDisk 1)).1 = some (0, 0) :=
    (scanLog_eq_some_iff hdata).mpr ⟨[], hholds.log, powerModel_clean _ _, rfl⟩
  exact journal_crash_safety hholds.two_le hholds.le_maximum hholds.fits hholds.superblock
    hholds.dataSectors_lt hscan rfl _

end EfesOS.Fs.Journal
