import EfesOS.Fs.Journal.Canonical
import EfesOS.Fs.Journal.Log

/-!
# What a replay accepts

On a disk whose reads are stable, a replay accepts exactly the well-formed logs: a superblock that
fits the region, committed records with increasing sequences, at most one record that was not
committed, and empty sectors up to the end (`WellFormed`). The records of such a log are handed to
the consumer in order, and from any other disk nothing is (`journal_replay_exact`).

`isLog_iff` brings the shape of a log that the scan builds up sector by sector into this form.
-/

set_option autoImplicit false

namespace EfesOS.Fs.Journal

open EfesOS.Foundation

universe v

/-! ### The shape of a log -/

/-- Committed records with increasing sequences above another, at most one record that was prepared
and not committed, with a newer sequence, and empty sectors behind them. -/
def LogShape (previous : ℕ) (sectors : List Sector) (records : List JournalEntry) : Prop :=
  ∃ committed torn empty : List Sector, sectors = committed ++ (torn ++ empty) ∧
    committed.map journalDecode = records.map some ∧
    (previous :: records.map JournalEntry.sequence).Pairwise (· < ·) ∧
    torn.length ≤ 1 ∧
    (∀ sector ∈ torn, ∃ entry, journalDecodePrepared sector = some entry ∧
      previous < entry.sequence ∧ ∀ record ∈ records, record.sequence < entry.sequence) ∧
    ∀ sector ∈ empty, sectorIsEmpty sector = true

variable {previous : ℕ} {sectors : List Sector}

theorem LogShape.of_empty (h : ∀ sector ∈ sectors, sectorIsEmpty sector = true) :
    LogShape previous sectors [] :=
  ⟨[], [], sectors, rfl, rfl, List.pairwise_singleton _ _, Nat.zero_le _,
    fun _ hmem ↦ absurd hmem List.not_mem_nil, h⟩

variable {records : List JournalEntry}

theorem logShape_of_isLog (h : IsLog previous sectors records) :
    LogShape previous sectors records := by
  induction h with
  | full previous => exact .of_empty fun _ hmem ↦ absurd hmem List.not_mem_nil
  | empty previous hempty hrest => exact .of_empty (List.forall_mem_cons.mpr ⟨hempty, hrest⟩)
  | @torn previous sector rest htorn hrest =>
    obtain ⟨entry, hentry, hnewer⟩ := tornAfter_iff.mp htorn
    refine ⟨[], [sector], rest, rfl, rfl, List.pairwise_singleton _ _, le_rfl,
      fun other hother ↦ ?_,
      hrest⟩
    rw [List.mem_singleton.1 hother]
    exact ⟨entry, hentry, sequenceIsNewer_iff.mp hnewer, fun _ hmem ↦ absurd hmem List.not_mem_nil⟩
  | @record previous sector entry rest records hrecord _ ih =>
    obtain ⟨hdecode, hnewer⟩ := recordAfter_eq_some_iff.mp hrecord
    have hlt := sequenceIsNewer_iff.mp hnewer
    obtain ⟨committed, torn, empty, rfl, hcommitted, hsorted, hlength, htorn, hempty⟩ := ih
    refine ⟨sector :: committed, torn, empty, rfl, ?_, ?_, hlength, fun other hother ↦ ?_, hempty⟩
    · rw [List.map_cons, List.map_cons, hdecode, hcommitted]
    · refine List.Pairwise.cons (fun sequence hmem ↦ ?_) hsorted
      rcases List.mem_cons.1 hmem with rfl | hmem
      · exact hlt
      · exact hlt.trans (List.rel_of_pairwise_cons hsorted hmem)
    · obtain ⟨prepared, hprepared, habove, hall⟩ := htorn other hother
      exact ⟨prepared, hprepared, hlt.trans habove, List.forall_mem_cons.mpr ⟨habove, hall⟩⟩

theorem isLog_of_logShape (h : LogShape previous sectors records) :
    IsLog previous sectors records := by
  obtain ⟨committed, torn, empty, rfl, hcommitted, hsorted, hlength, htorn, hempty⟩ := h
  induction committed generalizing previous records with
  | nil =>
    obtain rfl : records = [] := List.map_eq_nil_iff.1 hcommitted.symm
    match torn, hlength with
    | [], _ => exact .of_all_empty _ hempty
    | [sector], _ =>
      obtain ⟨entry, hentry, hnewer, -⟩ := htorn sector List.mem_cons_self
      exact .torn (tornAfter_iff.mpr ⟨entry, hentry, sequenceIsNewer_iff.mpr hnewer⟩) hempty
  | cons sector committed ih =>
    cases records with
    | nil => cases hcommitted
    | cons entry records =>
      obtain ⟨hdecode, hrest⟩ := List.cons.inj hcommitted
      have hlt : previous < entry.sequence := List.rel_of_pairwise_cons hsorted List.mem_cons_self
      refine .record (recordAfter_eq_some_iff.mpr ⟨hdecode, sequenceIsNewer_iff.mpr hlt⟩)
        (ih hrest (List.Pairwise.of_cons hsorted) fun other hother ↦ ?_)
      obtain ⟨prepared, hprepared, -, hall⟩ := htorn other hother
      obtain ⟨hentry, hrecords⟩ := List.forall_mem_cons.mp hall
      exact ⟨prepared, hprepared, hentry, hrecords⟩

theorem isLog_iff :
    IsLog previous sectors records ↔ LogShape previous sectors records :=
  ⟨logShape_of_isLog, isLog_of_logShape⟩

/-! ### A disk with stable reads -/

/-- A disk that always reads the same; a sector that cannot be read is `none`. -/
abbrev StableDisk := ℕ → Option Sector

def stableReads (disk : StableDisk) : SectorIO Unit Sector where
  read address _ := (disk address, ())
  write _ _ _ := (false, ())

theorem stableReads_read (disk : StableDisk) (address : ℕ) (state : Unit) :
    (stableReads disk).read address state = (disk address, ()) := rfl

def stableModel (disk : StableDisk) : ReadModel (stableReads disk) where
  stored _ address := (disk address).getD (Buffer.zeroed 512)
  readable _ address := (disk address).isSome
  fails _ := false
  next state := state
  read_eq state address hreadable := by
    obtain ⟨sector, hsector⟩ := Option.isSome_iff_exists.mp hreadable
    change (disk address, ()) = (some ((disk address).getD (Buffer.zeroed 512)), state)
    rw [hsector]
    rfl
  stored_next _ := rfl
  readable_next _ := rfl

variable {disk : StableDisk} {startLba sectorCount dataSectors : ℕ}

theorem stableModel_clean (reads : ℕ) (state : Unit) : (stableModel disk).Clean reads state :=
  fun _ _ ↦ rfl

variable {index remaining : ℕ}

theorem readable_cons {sector : Sector} (hfirst : disk (startLba + 1 + index) = some sector)
    (hrest : Readable (stableModel disk) () startLba (index + 1) remaining) :
    Readable (stableModel disk) () startLba index (remaining + 1) := by
  intro position hle hlt
  rcases eq_or_lt_of_le hle with rfl | hgt
  · exact Option.isSome_iff_exists.mpr ⟨sector, hfirst⟩
  · exact hrest position hgt (by omega)

/-- A second loop that succeeds has read all its sectors. -/
theorem readable_of_scanEmptyTail {count last : ℕ} {result : ℕ × ℕ}
    (h : (scanEmptyTail (stableReads disk) startLba count last remaining index ()).1 =
      some result) :
    Readable (stableModel disk) () startLba index remaining := by
  induction remaining generalizing index with
  | zero => exact fun position hle hlt ↦ absurd hlt (by omega)
  | succ remaining ih =>
    rw [scanEmptyTail, stableReads_read] at h
    cases hsector : disk (startLba + 1 + index) with
    | none =>
      rw [hsector] at h
      cases h
    | some sector =>
      rw [hsector] at h
      cases hempty : sectorIsEmpty sector with
      | false =>
        simp only [hempty, Bool.false_eq_true, not_false_eq_true, if_true] at h
        cases h
      | true =>
        simp only [hempty, not_true_eq_false, if_false] at h
        exact readable_cons hsector (ih h)

/-- A first loop that succeeds has read all its sectors. -/
theorem readable_of_scanRecords {count : ℕ} {result : ℕ × ℕ}
    (h : (scanRecords (stableReads disk) startLba remaining index count previous ()).1 =
      some result) :
    Readable (stableModel disk) () startLba index remaining := by
  induction remaining generalizing index count previous with
  | zero => exact fun position hle hlt ↦ absurd hlt (by omega)
  | succ remaining ih =>
    rw [scanRecords, stableReads_read] at h
    cases hsector : disk (startLba + 1 + index) with
    | none =>
      rw [hsector] at h
      cases h
    | some sector =>
      rw [hsector] at h
      cases hempty : sectorIsEmpty sector with
      | true =>
        simp only [hempty, if_true] at h
        exact readable_of_scanEmptyTail h
      | false =>
        simp only [hempty, Bool.false_eq_true, if_false] at h
        cases hrecord : recordAfter previous sector with
        | none =>
          simp only [hrecord] at h
          cases htorn : tornAfter previous sector with
          | true =>
            simp only [htorn, if_true] at h
            exact readable_cons hsector (readable_of_scanEmptyTail h)
          | false =>
            simp only [htorn, Bool.false_eq_true, if_false] at h
            cases h
        | some entry =>
          simp only [hrecord] at h
          exact readable_cons hsector (ih h)

/-! ### Opening and replaying -/

/-- The region holds a well-formed log with these records. -/
structure WellFormed (disk : StableDisk) (startLba sectorCount dataSectors : ℕ)
    (records : List JournalEntry) : Prop where
  unwrapped : startLba + sectorCount ≤ 2 ^ 64
  superblock : ∃ sector, disk startLba = some sector ∧
    journalSuperblockDecode sector = some dataSectors
  within : dataSectors + 1 ≤ sectorCount
  log : ∃ sectors : List Sector,
    (List.range dataSectors).map (fun index ↦ disk (startLba + 1 + index)) = sectors.map some ∧
      LogShape 0 sectors records

theorem regionFits_iff (hcount : 2 ≤ sectorCount) (hmaximum : sectorCount ≤ 1025) :
    regionFits startLba sectorCount = true ↔ startLba + sectorCount ≤ 2 ^ 64 := by
  unfold regionFits
  rw [decide_eq_true_eq]
  omega

/-- The data sectors that are read are the stored ones. -/
theorem map_range_of_readable
    (h : Readable (stableModel disk) () startLba 0 dataSectors) :
    (List.range dataSectors).map (fun index ↦ disk (startLba + 1 + index)) =
      (logSectors ((stableModel disk).stored ()) startLba dataSectors).map some := by
  rw [logSectors, dataSectorsFrom, List.map_map, ← List.range_eq_range']
  refine List.map_congr_left fun index hindex ↦ ?_
  have hsome := h index (Nat.zero_le _) (by rw [Nat.zero_add]; exact List.mem_range.1 hindex)
  obtain ⟨sector, hsector⟩ := Option.isSome_iff_exists.mp hsome
  change disk (startLba + 1 + index) = some ((disk (startLba + 1 + index)).getD _)
  rw [hsector]
  rfl

theorem readable_of_map_range
    (h : (List.range dataSectors).map (fun index ↦ disk (startLba + 1 + index)) =
      sectors.map some) : Readable (stableModel disk) () startLba 0 dataSectors := by
  intro position _ hlt
  rw [Nat.zero_add] at hlt
  have hmem : disk (startLba + 1 + position) ∈ sectors.map some := by
    rw [← h]
    exact List.mem_map.mpr ⟨position, List.mem_range.2 hlt, rfl⟩
  obtain ⟨sector, -, hsector⟩ := List.mem_map.mp hmem
  exact Option.isSome_iff_exists.mpr ⟨sector, hsector.symm⟩

/-- The sectors of a well-formed log can be read and hold a journal. -/
theorem WellFormed.holds (hcount : 2 ≤ sectorCount) (hmaximum : sectorCount ≤ 1025)
    (h : WellFormed disk startLba sectorCount dataSectors records) :
    RegionReadable (stableModel disk) () startLba (dataSectors + 1) ∧
      HoldsJournal ((stableModel disk).stored ()) startLba sectorCount dataSectors records := by
  obtain ⟨hunwrapped, ⟨sector, hsector, hsuperblock⟩, hwithin, sectors, hsectors, hlog⟩ := h
  have hreadable := readable_of_map_range hsectors
  have hsame : sectors = logSectors ((stableModel disk).stored ()) startLba dataSectors :=
    List.map_injective_iff.mpr (Option.some_injective _)
      (hsectors.symm.trans (map_range_of_readable hreadable))
  have hstored : (stableModel disk).stored () startLba = sector := by
    change (disk startLba).getD _ = sector
    rw [hsector]
    rfl
  refine ⟨fun offset hoffset ↦ ?_, hcount, hmaximum,
    (regionFits_iff hcount hmaximum).mpr hunwrapped, hstored ▸ hsuperblock, hwithin,
    isLog_iff.mpr (hsame ▸ hlog)⟩
  cases offset with
  | zero => exact Option.isSome_iff_exists.mpr ⟨sector, hsector⟩
  | succ position =>
    rw [Nat.add_comm position, ← Nat.add_assoc]
    exact hreadable position (Nat.zero_le _) (by omega)

theorem wellFormed_of_openLog {result : ℕ × ℕ × ℕ}
    (h : (openLog (stableReads disk) startLba sectorCount ()).1 = some result) :
    ∃ dataSectors records, WellFormed disk startLba sectorCount dataSectors records := by
  rw [openLog] at h
  generalize hopen : openRegion (stableReads disk) startLba sectorCount () = opened at h
  obtain ⟨found | dataSectors, state⟩ := opened
  · cases h
  · obtain ⟨hcount, hmaximum, hfits, hsuperblock, hwithin⟩ := openRegion_eq_some_iff.mp hopen
    dsimp only at h
    generalize hscan : scanLog (stableReads disk) startLba dataSectors state = scanned at h
    obtain ⟨none | found, state'⟩ := scanned
    · cases h
    · have hfound : (scanLog (stableReads disk) startLba dataSectors ()).1 = some found :=
        congrArg Prod.fst hscan
      have hreadable := readable_of_scanRecords hfound
      obtain ⟨records, hlog, -⟩ := (scanLog_eq_some_iff hreadable).mp hfound
      exact ⟨dataSectors, records, (regionFits_iff hcount hmaximum).mp hfits,
        hsuperblock.imp fun _ hsector ↦ ⟨congrArg Prod.fst hsector.1, hsector.2⟩, hwithin,
        _, map_range_of_readable hreadable, isLog_iff.mp hlog⟩

/-- A consumer that also writes down which records it was handed. -/
def recorded {τ : Type v} (apply : JournalEntry → τ → Bool × τ) (entry : JournalEntry)
    (state : List JournalEntry × τ) : Bool × List JournalEntry × τ :=
  ((apply entry state.2).1, state.1 ++ [entry], (apply entry state.2).2)

/-- Records are handed over in order, up to the first that is refused. -/
theorem applyRecords_recorded {τ : Type v} (apply : JournalEntry → τ → Bool × τ)
    (records handed : List JournalEntry) (consumer : τ) :
    ∃ more, more <+: records ∧
      applyRecords (recorded apply) records (handed, consumer) =
        ((applyRecords apply records consumer).1, handed ++ more,
          (applyRecords apply records consumer).2) ∧
      ((applyRecords apply records consumer).1 = true → more = records) := by
  induction records generalizing handed consumer with
  | nil => exact ⟨[], List.prefix_rfl, by rw [List.append_nil]; rfl, fun _ ↦ rfl⟩
  | cons entry records ih =>
    unfold applyRecords recorded
    rcases apply entry consumer with ⟨accepted, consumer'⟩
    cases accepted with
    | false => exact ⟨[entry], List.prefix_append [entry] records, rfl, by simp⟩
    | true =>
      obtain ⟨more, hprefix, happly, hall⟩ := ih (handed ++ [entry]) consumer'
      refine ⟨entry :: more, (List.prefix_cons_inj entry).mpr hprefix, ?_, fun haccepted ↦ ?_⟩
      · rw [List.append_assoc] at happly
        exact happly
      · rw [hall haccepted]

theorem WellFormed.journalReplay {τ : Type v} (hcount : 2 ≤ sectorCount)
    (hmaximum : sectorCount ≤ 1025) (h : WellFormed disk startLba sectorCount dataSectors records)
    (apply : JournalEntry → τ → Bool × τ) (consumer : τ) :
    journalReplay (stableReads disk) apply startLba sectorCount () consumer =
      (replayResult records (applyRecords apply records consumer), (),
        (applyRecords apply records consumer).2) := by
  obtain ⟨hreadable, hholds⟩ := h.holds hcount hmaximum
  obtain ⟨reads, hreads⟩ :=
    journalReplay_of_holds hreadable apply consumer hholds (stableModel_clean _ _)
  exact hreads

/-- A replay accepts exactly the well-formed logs. From such a log the consumer gets the committed
records in order, each once, and all of them if it accepts them all, and then the replay returns
their number. From any other disk the consumer gets nothing and the replay fails. -/
theorem journal_replay_exact {τ : Type v} (disk : StableDisk) (startLba : ℕ)
    (apply : JournalEntry → τ → Bool × τ) (consumer : τ) (hcount : 2 ≤ sectorCount)
    (hmaximum : sectorCount ≤ 1025) :
    (∀ dataSectors records, WellFormed disk startLba sectorCount dataSectors records →
      ((applyRecords apply records consumer).1 = true →
        journalReplay (stableReads disk) (recorded apply) startLba sectorCount () ([], consumer) =
          (some records.length, (), records, (applyRecords apply records consumer).2)) ∧
      ((applyRecords apply records consumer).1 = false →
        ∃ handed, handed <+: records ∧
          journalReplay (stableReads disk) (recorded apply) startLba sectorCount () ([], consumer) =
            (none, (), handed, (applyRecords apply records consumer).2))) ∧
      ((∀ dataSectors records, ¬ WellFormed disk startLba sectorCount dataSectors records) →
        journalReplay (stableReads disk) (recorded apply) startLba sectorCount () ([], consumer) =
          (none, (), [], consumer)) := by
  refine ⟨fun dataSectors records hformed ↦ ?_, fun hmalformed ↦ ?_⟩
  · obtain ⟨more, hprefix, happly, hall⟩ := applyRecords_recorded apply records [] consumer
    rw [hformed.journalReplay hcount hmaximum, happly]
    refine ⟨fun haccepted ↦ ?_, fun hrefused ↦ ⟨more, hprefix, ?_⟩⟩
    · rw [replayResult, if_pos haccepted, hall haccepted]
      rfl
    · rw [replayResult, if_neg (by rw [hrefused]; decide)]
      rfl
  · have hopen : (openLog (stableReads disk) startLba sectorCount ()).1 = none := by
      rw [Option.eq_none_iff_forall_ne_some]
      intro result hresult
      obtain ⟨dataSectors, records, hformed⟩ := wellFormed_of_openLog hresult
      exact hmalformed dataSectors records hformed
    rw [journalReplay]
    generalize openLog (stableReads disk) startLba sectorCount () = opened at hopen
    obtain ⟨found, state⟩ := opened
    cases hopen
    rfl

/-- A journal of two data sectors with one record. -/
def noteDisk : StableDisk := fun address ↦
  if address = 7 then journalSuperblockEncode 2
  else if address = 8 then journalEncode noteRequest
  else some (Buffer.zeroed 512)

theorem wellFormed_noteDisk : WellFormed noteDisk 7 3 2 [noteRequest.entry] := by
  obtain ⟨superblock, hsuperblock⟩ := Option.isSome_iff_exists.mp
    (journalSuperblockEncode_isSome (show 0 < 2 by decide) (by decide))
  refine ⟨by decide,
    ⟨superblock, hsuperblock, journalSuperblockDecode_encode hsuperblock⟩, by decide,
    [commitSector noteRequest.preparedSector, Buffer.zeroed 512], ?_,
    [commitSector noteRequest.preparedSector], [], [Buffer.zeroed 512], rfl, ?_, ?_, Nat.zero_le _,
    fun _ hmem ↦ absurd hmem List.not_mem_nil, fun sector hmem ↦ ?_⟩
  · rfl
  · rw [List.map_singleton, journalDecode_commitSector encodable_noteRequest]
    rfl
  · exact List.Pairwise.cons (fun sequence hmem ↦ by
      rw [List.mem_singleton.1 hmem]; decide) (List.pairwise_singleton _ _)
  · rw [List.mem_singleton.1 hmem]
    exact (sectorIsEmpty_iff _).mpr rfl

theorem journal_replay_exact_note :
    2 ≤ 3 ∧ 3 ≤ 1025 ∧ WellFormed noteDisk 7 3 2 [noteRequest.entry] ∧
      journalReplay (stableReads noteDisk) (recorded fun _ (_ : Unit) ↦ (true, ())) 7 3 ()
        ([], ()) =
        (some 1, (), [noteRequest.entry], ()) := by
  refine ⟨by decide, by decide, wellFormed_noteDisk, ?_⟩
  exact ((journal_replay_exact noteDisk 7 (fun _ (_ : Unit) ↦ (true, ())) () (by decide)
    (by decide)).1 2 _ wellFormed_noteDisk).1 rfl

end EfesOS.Fs.Journal
