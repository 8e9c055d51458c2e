import EfesOS.Foundation.SectorIO
import EfesOS.Fs.Journal.Record

/-!
# The record log

The log functions of `fs/journal.c` over arbitrary sector callbacks: `scanLog`, `journalReplay`,
`journalNextSequence` and `journalAppend`. The superblock occupies the first sector of the region
and the records the sectors after it.

`IsLog` is the shape a scan accepts: committed records with increasing sequences, then at most one
torn append, then empty sectors. `scanLog_eq_some_iff` says that a scan succeeds on exactly these
logs when no read fails, and `journalReplay_of_holds`, `journalNextSequence_of_holds` and
`journalAppend_of_holds` what the callers of the scan do on them. `HoldsJournal.prepare` and
`HoldsJournal.commit` are the effects of the two writes of an append.
-/

set_option autoImplicit false

namespace EfesOS.Fs.Journal

open EfesOS.Foundation

universe u v

/-! ### The source functions -/

def sequenceIsNewer (sequence previous : ℕ) : Bool := sequence ≠ 0 ∧ sequence > previous

/-- The last sector of the region has a 64-bit address. -/
def regionFits (startLba sectorCount : ℕ) : Bool :=
  sectorCount ≠ 0 ∧ startLba ≤ 18446744073709551615 - (sectorCount - 1)

/-- A committed record that continues a log whose last sequence is `previous`. -/
def recordAfter (previous : ℕ) (sector : Sector) : Option JournalEntry :=
  (journalDecode sector).filter fun entry ↦ sequenceIsNewer entry.sequence previous

/-- A prepared record that an append left behind a log whose last sequence is `previous`. -/
def tornAfter (previous : ℕ) (sector : Sector) : Bool :=
  sector.readU32 journalCommitOffset = 0 ∧
    (journalDecodePrepared sector).any fun entry ↦ sequenceIsNewer entry.sequence previous

section Source

variable {σ : Type u} (io : SectorIO σ Sector)

/-- The second loop of `scan_log`, from `index` on: every sector is read and must be empty. -/
def scanEmptyTail (startLba count lastSequence : ℕ) : ℕ → ℕ → σ → Option (ℕ × ℕ) × σ
  | 0, _, state => (some (count, lastSequence), state)
  | remaining + 1, index, state =>
    match io.read (startLba + 1 + index) state with
    | (none, state) => (none, state)
    | (some sector, state) =>
      if ¬sectorIsEmpty sector then (none, state)
      else scanEmptyTail startLba count lastSequence remaining (index + 1) state

/-- The first loop of `scan_log`, from `index` on. A `break` goes on with the second loop: at the
same index after an empty sector, at the next one after a torn append. -/
def scanRecords (startLba : ℕ) : ℕ → ℕ → ℕ → ℕ → σ → Option (ℕ × ℕ) × σ
  | 0, _, count, previous, state => (some (count, previous), state)
  | remaining + 1, index, count, previous, state =>
    match io.read (startLba + 1 + index) state with
    | (none, state) => (none, state)
    | (some sector, state) =>
      if sectorIsEmpty sector then
        scanEmptyTail io startLba count previous (remaining + 1) index state
      else
        match recordAfter previous sector with
        | none =>
          if tornAfter previous sector then
            scanEmptyTail io startLba count previous remaining (index + 1) state
          else (none, state)
        | some entry =>
          scanRecords startLba remaining (index + 1) (count + 1) entry.sequence state

/-- The number of committed records and the last sequence of a well-formed log. -/
def scanLog (startLba dataSectors : ℕ) (state : σ) : Option (ℕ × ℕ) × σ :=
  scanRecords io startLba dataSectors 0 0 0 state

/-- The checks that open a region in all three callers of the scan: the region has a legal size,
its superblock decodes, and the data sectors fit. -/
def openRegion (startLba sectorCount : ℕ) (state : σ) : Option ℕ × σ :=
  if sectorCount < 2 ∨ sectorCount > journalMaxDataSectors + 1 ∨
      ¬regionFits startLba sectorCount then (none, state)
  else
    match io.read startLba state with
    | (none, state) => (none, state)
    | (some sector, state) =>
      match journalSuperblockDecode sector with
      | none => (none, state)
      | some dataSectors =>
        if dataSectors + 1 > sectorCount then (none, state) else (some dataSectors, state)

/-- Opens the region and scans its log: data sectors, record count and last sequence. -/
def openLog (startLba sectorCount : ℕ) (state : σ) : Option (ℕ × ℕ × ℕ) × σ :=
  match openRegion io startLba sectorCount state with
  | (none, state) => (none, state)
  | (some dataSectors, state) =>
    match scanLog io startLba dataSectors state with
    | (none, state) => (none, state)
    | (some (count, lastSequence), state) => (some (dataSectors, count, lastSequence), state)

/-- The second pass of `journal_replay`: the records are read again and handed to the consumer. -/
def replayRecords {τ : Type v} (apply : JournalEntry → τ → Bool × τ) (startLba : ℕ) :
    ℕ → ℕ → σ → τ → Bool × σ × τ
  | 0, _, state, consumer => (true, state, consumer)
  | remaining + 1, index, state, consumer =>
    match io.read (startLba + 1 + index) state with
    | (none, state) => (false, state, consumer)
    | (some sector, state) =>
      match journalDecode sector with
      | none => (false, state, consumer)
      | some entry =>
        match apply entry consumer with
        | (false, consumer) => (false, state, consumer)
        | (true, consumer) => replayRecords apply startLba remaining (index + 1) state consumer

/-- Returns the number of applied records, or `none` where the source returns zero. -/
def journalReplay {τ : Type v} (apply : JournalEntry → τ → Bool × τ)
    (startLba sectorCount : ℕ) (state : σ) (consumer : τ) : Option ℕ × σ × τ :=
  match openLog io startLba sectorCount state with
  | (none, state) => (none, state, consumer)
  | (some (_, count, _), state) =>
    match replayRecords io apply startLba count 0 state consumer with
    | (false, state, consumer) => (none, state, consumer)
    | (true, state, consumer) => (some count, state, consumer)

def journalNextSequence (startLba sectorCount : ℕ) (state : σ) : Option ℕ × σ :=
  match openLog io startLba sectorCount state with
  | (none, state) => (none, state)
  | (some (_, _, lastSequence), state) =>
    if lastSequence = 0xFFFFFFFF then (none, state) else (some (lastSequence + 1), state)

/-- The two writes of an append and the read-back: the prepared record goes out first, then the
same sector with the commit marker. -/
def publishRecord (targetLba : ℕ) (prepared : Sector) (state : σ) : Bool × σ :=
  match io.write targetLba prepared state with
  | (false, state) => (false, state)
  | (true, state) =>
    match io.write targetLba (commitSector prepared) state with
    | (false, state) => (false, state)
    | (true, state) =>
      match io.read targetLba state with
      | (none, state) => (false, state)
      | (some sector, state) => ((journalDecode sector).isSome, state)

def journalAppend (startLba sectorCount : ℕ) (request : JournalRequest) (state : σ) : Bool × σ :=
  match openLog io startLba sectorCount state with
  | (none, state) => (false, state)
  | (some (dataSectors, count, lastSequence), state) =>
    if count ≥ dataSectors ∨ ¬sequenceIsNewer request.sequence lastSequence then (false, state)
    else
      match journalEncodeInternal request false with
      | none => (false, state)
      | some sector => publishRecord io (startLba + 1 + count) sector state

end Source

/-! ### Well-formed logs -/

/-- Committed records with increasing sequences above `previous`, then at most one torn append,
then empty sectors. -/
inductive IsLog : ℕ → List Sector → List JournalEntry → Prop
  | full (previous : ℕ) : IsLog previous [] []
  | empty (previous : ℕ) {sector : Sector} {rest : List Sector} (hempty : sectorIsEmpty sector)
      (hrest : ∀ other ∈ rest, sectorIsEmpty other) : IsLog previous (sector :: rest) []
  | torn {previous : ℕ} {sector : Sector} {rest : List Sector}
      (htorn : tornAfter previous sector) (hrest : ∀ other ∈ rest, sectorIsEmpty other) :
      IsLog previous (sector :: rest) []
  | record {previous : ℕ} {sector : Sector} {entry : JournalEntry} {rest : List Sector}
      {records : List JournalEntry} (hrecord : recordAfter previous sector = some entry)
      (hrest : IsLog entry.sequence rest records) :
      IsLog previous (sector :: rest) (entry :: records)

/-- The sequence a log ends with, `previous` when it holds no record. -/
def lastSequence (previous : ℕ) (records : List JournalEntry) : ℕ :=
  records.foldl (fun _ entry ↦ entry.sequence) previous

variable {previous : ℕ} {sector : Sector}

theorem recordAfter_eq_some_iff {entry : JournalEntry} :
    recordAfter previous sector = some entry ↔
      journalDecode sector = some entry ∧ sequenceIsNewer entry.sequence previous = true := by
  simp [recordAfter, Option.filter_eq_some_iff]

theorem tornAfter_iff :
    tornAfter previous sector = true ↔ ∃ entry, journalDecodePrepared sector = some entry ∧
      sequenceIsNewer entry.sequence previous = true := by
  simp only [tornAfter, decide_eq_true_eq, Option.any_eq_true]
  constructor
  · rintro ⟨-, h⟩
    exact h
  · rintro ⟨entry, hentry, hnewer⟩
    exact ⟨marker_of_journalDecodePrepared hentry, entry, hentry, hnewer⟩

theorem sequenceIsNewer_iff {sequence : ℕ} :
    sequenceIsNewer sequence previous = true ↔ previous < sequence := by
  simp only [sequenceIsNewer, decide_eq_true_eq]
  omega

/-- A torn append is not a committed record. -/
theorem recordAfter_eq_none_of_torn {later : ℕ} (htorn : tornAfter previous sector = true) :
    recordAfter later sector = none := by
  obtain ⟨entry, hentry, -⟩ := tornAfter_iff.mp htorn
  rw [recordAfter, journalDecode_eq_none_of_marker (marker_of_journalDecodePrepared hentry)]
  rfl

theorem sectorIsEmpty_eq_false_of_torn (htorn : tornAfter previous sector = true) :
    sectorIsEmpty sector = false := by
  obtain ⟨entry, hentry, -⟩ := tornAfter_iff.mp htorn
  exact sectorIsEmpty_eq_false_of_decode hentry

theorem sectorIsEmpty_eq_false_of_record {entry : JournalEntry}
    (hrecord : recordAfter previous sector = some entry) : sectorIsEmpty sector = false :=
  sectorIsEmpty_eq_false_of_decode (recordAfter_eq_some_iff.mp hrecord).1

theorem lastSequence_append (previous : ℕ) (records : List JournalEntry) (entry : JournalEntry) :
    lastSequence previous (records ++ [entry]) = entry.sequence := by
  simp [lastSequence]

namespace IsLog

variable {previous : ℕ} {sectors : List Sector} {records : List JournalEntry}

theorem of_all_empty (previous : ℕ) (hempty : ∀ sector ∈ sectors, sectorIsEmpty sector) :
    IsLog previous sectors [] := by
  cases sectors with
  | nil => exact .full previous
  | cons sector rest =>
    exact .empty previous (hempty sector (by simp)) fun other hother ↦ hempty other
      (by simp [hother])

theorem length_le (hlog : IsLog previous sectors records) : records.length ≤ sectors.length := by
  induction hlog with
  | full | empty | torn => exact Nat.zero_le _
  | record _ _ ih => exact Nat.succ_le_succ ih

variable {sector : Sector}

section

variable (hlog : IsLog previous sectors records)
include hlog

/-- The records of a log are the decoded sectors at its beginning. -/
theorem decode_getElem {index : ℕ} (hindex : index < records.length)
    (hsector : sectors[index]? = some sector) :
    journalDecode sector = some records[index] := by
  induction hlog generalizing index with
  | full | empty | torn => exact absurd hindex (Nat.not_lt_zero _)
  | record hrecord _ ih =>
    cases index with
    | zero =>
      obtain rfl : _ = sector := by simpa using hsector
      exact (recordAfter_eq_some_iff.mp hrecord).1
    | succ index =>
      exact ih (Nat.lt_of_succ_lt_succ hindex) (by simpa using hsector)

/-- A log denotes one list of records. -/
theorem unique {other : List JournalEntry} (hother : IsLog previous sectors other) :
    records = other := by
  induction hlog generalizing other with
  | full =>
    cases hother
    rfl
  | empty _ hempty _ =>
    cases hother with
    | empty | torn => rfl
    | record hrecord _ =>
      rw [sectorIsEmpty_eq_false_of_record hrecord] at hempty
      exact absurd hempty (by decide)
  | torn htorn _ =>
    cases hother with
    | empty | torn => rfl
    | record hrecord _ =>
      rw [recordAfter_eq_none_of_torn htorn] at hrecord
      cases hrecord
  | record hrecord _ ih =>
    cases hother with
    | empty _ hempty _ =>
      rw [sectorIsEmpty_eq_false_of_record hrecord] at hempty
      exact absurd hempty (by decide)
    | torn htorn _ =>
      rw [recordAfter_eq_none_of_torn htorn] at hrecord
      cases hrecord
    | record hsame hrest =>
      rw [hrecord] at hsame
      cases hsame
      rw [ih hrest]

theorem lastSequence_lt (hprevious : previous < 4294967296) :
    lastSequence previous records < 4294967296 := by
  induction hlog with
  | full | empty | torn => exact hprevious
  | record hrecord _ ih =>
    exact ih (sequence_of_decode (recordAfter_eq_some_iff.mp hrecord).1).2

/-- What lies behind the first free slot is empty. -/
theorem tail_empty :
    ∀ sector ∈ sectors.drop (records.length + 1), sectorIsEmpty sector := by
  induction hlog with
  | full => simp
  | empty _ _ hrest | torn _ hrest => exact hrest
  | record _ _ ih => exact ih

/-- A log up to its first free slot, with any log behind it. -/
theorem replace_tail {tail : List Sector} {more : List JournalEntry}
    (htail : IsLog (lastSequence previous records) tail more) :
    IsLog previous (sectors.take records.length ++ tail) (records ++ more) := by
  induction hlog with
  | full | empty | torn => exact htail
  | record hrecord _ ih => exact .record hrecord (ih htail)

end

theorem set_eq (hroom : records.length < sectors.length) (sector : Sector) :
    sectors.set records.length sector =
      sectors.take records.length ++ sector :: sectors.drop (records.length + 1) :=
  List.set_eq_take_append_cons_drop.trans (if_pos hroom)

section

variable (hlog : IsLog previous sectors records) (hroom : records.length < sectors.length)
include hlog hroom

/-- A torn append in the first free slot leaves the records as they are. -/
theorem set_torn
    (htorn : tornAfter (lastSequence previous records) sector) :
    IsLog previous (sectors.set records.length sector) records := by
  rw [set_eq hroom]
  simpa using hlog.replace_tail (.torn htorn hlog.tail_empty)

/-- A committed record in the first free slot extends the records. -/
theorem set_record
    {entry : JournalEntry}
    (hrecord : recordAfter (lastSequence previous records) sector = some entry) :
    IsLog previous (sectors.set records.length sector) (records ++ [entry]) := by
  rw [set_eq hroom]
  exact hlog.replace_tail (.record hrecord (.of_all_empty _ hlog.tail_empty))

end

end IsLog

/-! ### What a scan does to its device -/

section Reads

variable {σ : Type u} {io : SectorIO σ Sector} {property : σ → Prop} {startLba sectorCount : ℕ}
  {state : σ}

/-- The reads of a region preserve a property of the device. -/
def ReadsPreserve (io : SectorIO σ Sector) (property : σ → Prop) (startLba sectorCount : ℕ) :
    Prop :=
  ∀ offset < sectorCount, ∀ state, property state → property (io.read (startLba + offset) state).2

theorem ReadsPreserve.data (hread : ReadsPreserve io property startLba sectorCount) (index : ℕ)
    (hindex : index + 1 < sectorCount) (hstate : property state) :
    property (io.read (startLba + 1 + index) state).2 := by
  rw [Nat.add_assoc, Nat.add_comm 1]
  exact hread (index + 1) hindex state hstate

section

variable (hread : ReadsPreserve io property startLba sectorCount) {remaining index : ℕ}
  (hroom : index + remaining < sectorCount) (count previous : ℕ) (hstate : property state)
include hread hroom hstate

/-- The second loop does to the device no more than its reads do. -/
theorem scanEmptyTail_preserves :
    property (scanEmptyTail io startLba count previous remaining index state).2 := by
  induction remaining generalizing index state with
  | zero => exact hstate
  | succ remaining ih =>
    have hnext := hread.data index (by omega) hstate
    rw [scanEmptyTail]
    generalize io.read (startLba + 1 + index) state = result at hnext ⊢
    obtain ⟨_ | sector, after⟩ := result
    · exact hnext
    · dsimp only
      split_ifs
      · exact ih (by omega) hnext
      · exact hnext

/-- A scan does to the device no more than its reads do. -/
theorem scanRecords_preserves :
    property (scanRecords io startLba remaining index count previous state).2 := by
  induction remaining generalizing index count previous state with
  | zero => exact hstate
  | succ remaining ih =>
    have hnext := hread.data index (by omega) hstate
    rw [scanRecords]
    generalize io.read (startLba + 1 + index) state = result at hnext ⊢
    obtain ⟨_ | sector, after⟩ := result
    · exact hnext
    · dsimp only
      cases sectorIsEmpty sector with
      | true => exact scanEmptyTail_preserves hread hroom _ _ hnext
      | false =>
        cases recordAfter previous sector with
        | none =>
          cases tornAfter previous sector with
          | true => exact scanEmptyTail_preserves hread (by omega) _ _ hnext
          | false => exact hnext
        | some entry => exact ih (by omega) _ _ hnext

end

/-- A region is opened for exactly the superblocks that fit it. -/
theorem openRegion_eq_some_iff {dataSectors : ℕ} {after : σ} :
    openRegion io startLba sectorCount state = (some dataSectors, after) ↔
      2 ≤ sectorCount ∧ sectorCount ≤ 1025 ∧ regionFits startLba sectorCount = true ∧
        (∃ sector, io.read startLba state = (some sector, after) ∧
          journalSuperblockDecode sector = some dataSectors) ∧ dataSectors + 1 ≤ sectorCount := by
  unfold openRegion
  split_ifs with hsize
  · refine iff_of_false (by simp) ?_
    rintro ⟨htwo, hmaximum, hfits, -⟩
    rcases hsize with hsmall | hlarge | hwrap
    · omega
    · exact absurd hlarge (not_lt.mpr hmaximum)
    · exact hwrap hfits
  · simp only [not_or, not_lt, not_not, journalMaxDataSectors] at hsize
    obtain ⟨htwo, hmaximum, hfits⟩ := hsize
    rcases io.read startLba state with ⟨_ | sector, next⟩
    · simp
    · simp only [htwo, hmaximum, hfits, true_and, Prod.mk.injEq, Option.some.injEq]
      cases hdecode : journalSuperblockDecode sector with
      | none =>
        refine iff_of_false (by simp) ?_
        rintro ⟨⟨_, ⟨rfl, -⟩, hother⟩, -⟩
        cases hdecode.symm.trans hother
      | some count =>
        dsimp only
        split_ifs with hroom
        · refine iff_of_false (by simp) ?_
          rintro ⟨⟨_, ⟨rfl, -⟩, hother⟩, hwithin⟩
          cases hdecode.symm.trans hother
          omega
        · constructor
          · intro h
            cases h
            exact ⟨⟨sector, ⟨rfl, rfl⟩, hdecode⟩, by omega⟩
          · rintro ⟨⟨_, ⟨rfl, rfl⟩, hother⟩, -⟩
            cases hdecode.symm.trans hother
            rfl

theorem openLog_preserves (hread : ReadsPreserve io property startLba sectorCount)
    (hstate : property state) : property (openLog io startLba sectorCount state).2 := by
  by_cases hsize : sectorCount < 2 ∨ sectorCount > journalMaxDataSectors + 1 ∨
      ¬regionFits startLba sectorCount
  · rw [openLog, openRegion, if_pos hsize]
    exact hstate
  · rw [openLog, openRegion, if_neg hsize]
    have hnext := hread 0 (by omega) state hstate
    generalize io.read startLba state = result at hnext ⊢
    obtain ⟨_ | sector, after⟩ := result
    · exact hnext
    · dsimp only
      cases journalSuperblockDecode sector with
      | none => exact hnext
      | some dataSectors =>
        by_cases hroom : dataSectors + 1 > sectorCount
        · simp only [if_pos hroom]
          exact hnext
        · simp only [if_neg hroom]
          have hscan : property (scanLog io startLba dataSectors after).2 :=
            scanRecords_preserves hread (by omega) 0 0 hnext
          generalize scanLog io startLba dataSectors after = result at hscan ⊢
          obtain ⟨_ | _, final⟩ := result <;> exact hscan

/-- The second pass of a replay does to the device no more than its reads do. -/
theorem replayRecords_preserves {τ : Type v} (apply : JournalEntry → τ → Bool × τ)
    (hread : ReadsPreserve io property startLba sectorCount) {count index : ℕ}
    (hroom : index + count < sectorCount) (consumer : τ) (hstate : property state) :
    property (replayRecords io apply startLba count index state consumer).2.1 := by
  induction count generalizing index state consumer with
  | zero => exact hstate
  | succ count ih =>
    have hnext := hread.data index (by omega) hstate
    rw [replayRecords]
    generalize io.read (startLba + 1 + index) state = result at hnext ⊢
    obtain ⟨_ | sector, after⟩ := result
    · exact hnext
    · dsimp only
      cases journalDecode sector with
      | none => exact hnext
      | some entry =>
        rcases happly : apply entry consumer with ⟨_ | _, next⟩
        · simp only [happly]
          exact hnext
        · simp only [happly]
          exact ih (by omega) next hnext

end Reads

/-! ### The scan -/

/-- The data sectors of a region from `index` on. -/
def dataSectorsFrom (stored : ℕ → Sector) (startLba index remaining : ℕ) : List Sector :=
  (List.range' index remaining).map fun position ↦ stored (startLba + 1 + position)

/-- The data sectors of a region. -/
def logSectors (stored : ℕ → Sector) (startLba dataSectors : ℕ) : List Sector :=
  dataSectorsFrom stored startLba 0 dataSectors

/-- How many reads a scan makes of a log with `count` records. When the first free slot is empty
the second loop starts over at it, and it is read twice. -/
def scanReads (sectors : List Sector) (count : ℕ) : ℕ :=
  sectors.length + if sectors[count]?.any sectorIsEmpty then 1 else 0

theorem dataSectorsFrom_succ (stored : ℕ → Sector) (startLba index remaining : ℕ) :
    dataSectorsFrom stored startLba index (remaining + 1) =
      stored (startLba + 1 + index) :: dataSectorsFrom stored startLba (index + 1) remaining := by
  simp [dataSectorsFrom, List.range'_succ]

@[simp]
theorem length_dataSectorsFrom (stored : ℕ → Sector) (startLba index remaining : ℕ) :
    (dataSectorsFrom stored startLba index remaining).length = remaining := by
  simp [dataSectorsFrom]

@[simp]
theorem length_logSectors (stored : ℕ → Sector) (startLba dataSectors : ℕ) :
    (logSectors stored startLba dataSectors).length = dataSectors :=
  length_dataSectorsFrom stored startLba 0 dataSectors

theorem getElem?_logSectors (stored : ℕ → Sector) (startLba : ℕ) {dataSectors index : ℕ}
    (hindex : index < dataSectors) :
    (logSectors stored startLba dataSectors)[index]? = some (stored (startLba + 1 + index)) := by
  simp [logSectors, dataSectorsFrom, hindex]

theorem scanReads_of_empty (hempty : sectorIsEmpty sector) (rest : List Sector) :
    scanReads (sector :: rest) 0 = rest.length + 1 + 1 := by
  simp [scanReads, hempty]

theorem scanReads_of_not_empty (hempty : sectorIsEmpty sector = false) (rest : List Sector) :
    scanReads (sector :: rest) 0 = rest.length + 1 := by
  simp [scanReads, hempty]

theorem scanReads_succ (sector : Sector) (rest : List Sector) (count : ℕ) :
    scanReads (sector :: rest) (count + 1) = scanReads rest count + 1 := by
  simp only [scanReads, List.length_cons, List.getElem?_cons_succ]
  omega

theorem le_scanReads (sectors : List Sector) (count : ℕ) :
    sectors.length ≤ scanReads sectors count :=
  Nat.le_add_right _ _

section Scan

variable {σ : Type u} {io : SectorIO σ Sector} {model : ReadModel io} {startLba : ℕ}

/-- The data sectors from `index` on can be read. -/
def Readable (model : ReadModel io) (state : σ) (startLba index remaining : ℕ) : Prop :=
  ∀ position, index ≤ position → position < index + remaining →
    model.readable state (startLba + 1 + position)

variable {state : σ} {index remaining : ℕ}

theorem Readable.head (hreadable : Readable model state startLba index (remaining + 1)) :
    model.readable state (startLba + 1 + index) :=
  hreadable index le_rfl (by omega)

theorem Readable.tail (hreadable : Readable model state startLba index (remaining + 1)) :
    Readable model (model.next state) startLba (index + 1) remaining := by
  intro position hfirst hlast
  rw [model.readable_next]
  exact hreadable position (by omega) (by omega)

theorem Readable.next (hreadable : Readable model state startLba index remaining) :
    Readable model (model.next state) startLba index remaining := by
  intro position hfirst hlast
  rw [model.readable_next]
  exact hreadable position hfirst hlast

/-- What the second loop does on empty sectors that can all be read. -/
theorem scanEmptyTail_of_empty (count last : ℕ)
    (hreadable : Readable model state startLba index remaining)
    (hclean : model.Clean remaining state)
    (hempty : ∀ sector ∈ dataSectorsFrom (model.stored state) startLba index remaining,
      sectorIsEmpty sector) :
    scanEmptyTail io startLba count last remaining index state =
      (some (count, last), model.advance remaining state) := by
  induction remaining generalizing index state with
  | zero => rfl
  | succ remaining ih =>
    rw [ReadModel.clean_succ_iff] at hclean
    rw [dataSectorsFrom_succ, ← model.stored_next] at hempty
    obtain ⟨hfirst, hrest⟩ := List.forall_mem_cons.mp hempty
    rw [model.stored_next] at hfirst
    rw [scanEmptyTail, ReadModel.read_of_clean hreadable.head hclean.1]
    simp only [hfirst, not_true_eq_false, if_false]
    exact ih hreadable.tail hclean.2 hrest

variable {result : ℕ × ℕ}

/-- The second loop succeeds only when all reads do and all sectors are empty. -/
theorem empty_of_scanEmptyTail (count last : ℕ)
    (hreadable : Readable model state startLba index remaining)
    (hscan : (scanEmptyTail io startLba count last remaining index state).1 = some result) :
    model.Clean remaining state ∧
      (∀ sector ∈ dataSectorsFrom (model.stored state) startLba index remaining,
        sectorIsEmpty sector) ∧ result = (count, last) := by
  induction remaining generalizing index state with
  | zero =>
    refine ⟨model.clean_zero state, ?_, (Option.some.inj hscan).symm⟩
    intro sector hsector
    simp [dataSectorsFrom] at hsector
  | succ remaining ih =>
    rw [scanEmptyTail] at hscan
    cases hfails : model.fails state with
    | true =>
      rw [ReadModel.read_of_fails hreadable.head hfails] at hscan
      cases hscan
    | false =>
      rw [ReadModel.read_of_clean hreadable.head hfails] at hscan
      cases hfirst : sectorIsEmpty (model.stored state (startLba + 1 + index)) with
      | false =>
        simp only [hfirst, Bool.false_eq_true, not_false_eq_true, if_true] at hscan
        cases hscan
      | true =>
        simp only [hfirst, not_true_eq_false, if_false] at hscan
        obtain ⟨hclean, hrest, hresult⟩ := ih hreadable.tail hscan
        refine ⟨(model.clean_succ_iff _ _).mpr ⟨hfails, hclean⟩, ?_, hresult⟩
        rw [model.stored_next] at hrest
        exact List.forall_mem_cons.mpr ⟨hfirst, hrest⟩

variable {previous : ℕ}

/-- What the first loop does on a well-formed rest of a log that can be read. -/
theorem scanRecords_of_isLog (count : ℕ) {records : List JournalEntry}
    (hreadable : Readable model state startLba index remaining)
    (hlog : IsLog previous (dataSectorsFrom (model.stored state) startLba index remaining) records)
    (hclean : model.Clean (scanReads (dataSectorsFrom (model.stored state) startLba index remaining)
      records.length) state) :
    scanRecords io startLba remaining index count previous state =
      (some (count + records.length, lastSequence previous records),
        model.advance (scanReads (dataSectorsFrom (model.stored state) startLba index remaining)
          records.length) state) := by
  induction remaining generalizing index previous count state records with
  | zero =>
    cases hlog
    rfl
  | succ remaining ih =>
    rw [dataSectorsFrom_succ] at hlog hclean ⊢
    generalize hsector : model.stored state (startLba + 1 + index) = sector at hlog hclean ⊢
    have hfirst : model.fails state = false :=
      hclean 0 (lt_of_lt_of_le (Nat.succ_pos _) (le_scanReads (sector :: _) _))
    rw [scanRecords, ReadModel.read_of_clean hreadable.head hfirst, hsector]
    cases hlog with
    | empty _ hempty hrest =>
      -- The second loop starts over at this sector.
      rw [List.length_nil, scanReads_of_empty hempty, length_dataSectorsFrom] at hclean ⊢
      rw [ReadModel.clean_succ_iff] at hclean
      simp only [hempty, if_true]
      have htail : ∀ other ∈ dataSectorsFrom (model.stored (model.next state)) startLba index
          (remaining + 1), sectorIsEmpty other := by
        rw [model.stored_next, dataSectorsFrom_succ, hsector]
        exact List.forall_mem_cons.mpr ⟨hempty, hrest⟩
      exact scanEmptyTail_of_empty count previous hreadable.next hclean.2 htail
    | torn htorn hrest =>
      have hempty := sectorIsEmpty_eq_false_of_torn htorn
      rw [List.length_nil, scanReads_of_not_empty hempty, length_dataSectorsFrom] at hclean ⊢
      rw [ReadModel.clean_succ_iff] at hclean
      simp only [hempty, recordAfter_eq_none_of_torn htorn, htorn, Bool.false_eq_true, if_false,
        if_true]
      rw [← model.stored_next] at hrest
      exact scanEmptyTail_of_empty count previous hreadable.tail hclean.2 hrest
    | @record _ _ entry _ records hrecord hrest =>
      have hempty := sectorIsEmpty_eq_false_of_record hrecord
      rw [List.length_cons, scanReads_succ] at hclean ⊢
      rw [ReadModel.clean_succ_iff] at hclean
      simp only [hempty, hrecord, Bool.false_eq_true, if_false]
      rw [← model.stored_next] at hrest hclean ⊢
      rw [ih (count + 1) hreadable.tail hrest hclean.2, Nat.add_right_comm, Nat.add_assoc]
      rfl

/-- The first loop succeeds only on a well-formed rest of a log, and only if all reads do. -/
theorem isLog_of_scanRecords {count : ℕ} (hreadable : Readable model state startLba index remaining)
    (hscan : (scanRecords io startLba remaining index count previous state).1 = some result) :
    ∃ records,
      IsLog previous (dataSectorsFrom (model.stored state) startLba index remaining) records ∧
      model.Clean (scanReads (dataSectorsFrom (model.stored state) startLba index remaining)
        records.length) state := by
  induction remaining generalizing index previous count state with
  | zero => exact ⟨[], .full _, model.clean_zero state⟩
  | succ remaining ih =>
    rw [dataSectorsFrom_succ]
    rw [scanRecords] at hscan
    cases hfails : model.fails state with
    | true =>
      rw [ReadModel.read_of_fails hreadable.head hfails] at hscan
      cases hscan
    | false =>
      rw [ReadModel.read_of_clean hreadable.head hfails] at hscan
      generalize hsector : model.stored state (startLba + 1 + index) = sector at hscan ⊢
      cases hempty : sectorIsEmpty sector with
      | true =>
        simp only [hempty, if_true] at hscan
        obtain ⟨hclean, hrest, -⟩ := empty_of_scanEmptyTail count previous hreadable.next hscan
        rw [model.stored_next, dataSectorsFrom_succ] at hrest
        refine ⟨[], .empty _ hempty (List.forall_mem_cons.mp hrest).2, ?_⟩
        rw [List.length_nil, scanReads_of_empty hempty, length_dataSectorsFrom]
        exact (model.clean_succ_iff _ _).mpr ⟨hfails, hclean⟩
      | false =>
        simp only [hempty, Bool.false_eq_true, if_false] at hscan
        cases hrecord : recordAfter previous sector with
        | none =>
          simp only [hrecord] at hscan
          cases htorn : tornAfter previous sector with
          | false =>
            simp only [htorn, Bool.false_eq_true, if_false] at hscan
            cases hscan
          | true =>
            simp only [htorn, if_true] at hscan
            obtain ⟨hclean, hrest, -⟩ := empty_of_scanEmptyTail count previous hreadable.tail hscan
            rw [model.stored_next] at hrest
            refine ⟨[], .torn htorn hrest, ?_⟩
            rw [List.length_nil, scanReads_of_not_empty hempty, length_dataSectorsFrom]
            exact (model.clean_succ_iff _ _).mpr ⟨hfails, hclean⟩
        | some entry =>
          simp only [hrecord] at hscan
          obtain ⟨records, hrest, hclean⟩ := ih hreadable.tail hscan
          rw [model.stored_next] at hrest hclean
          refine ⟨entry :: records, .record hrecord hrest, ?_⟩
          rw [List.length_cons, scanReads_succ]
          exact (model.clean_succ_iff _ _).mpr ⟨hfails, hclean⟩

/-- A scan of a readable region succeeds on exactly the well-formed logs whose reads succeed, and
counts their records. -/
theorem scanLog_eq_some_iff {dataSectors : ℕ}
    (hreadable : Readable model state startLba 0 dataSectors) :
    (scanLog io startLba dataSectors state).1 = some result ↔
      ∃ records, IsLog 0 (logSectors (model.stored state) startLba dataSectors) records ∧
        model.Clean (scanReads (logSectors (model.stored state) startLba dataSectors)
          records.length) state ∧
        result = (records.length, lastSequence 0 records) := by
  constructor
  · intro hscan
    obtain ⟨records, hlog, hclean⟩ := isLog_of_scanRecords hreadable hscan
    refine ⟨records, hlog, hclean, ?_⟩
    rw [scanLog, scanRecords_of_isLog 0 hreadable hlog hclean, Nat.zero_add] at hscan
    exact (Option.some.inj hscan).symm
  · rintro ⟨records, hlog, hclean, rfl⟩
    rw [scanLog, scanRecords_of_isLog 0 hreadable hlog hclean, Nat.zero_add]

end Scan

/-! ### Opening a region -/

/-- The region of `sectorCount` sectors from `startLba` on holds a journal with these records. -/
structure HoldsJournal (stored : ℕ → Sector) (startLba sectorCount dataSectors : ℕ)
    (records : List JournalEntry) : Prop where
  two_le : 2 ≤ sectorCount
  le_maximum : sectorCount ≤ 1025
  fits : regionFits startLba sectorCount = true
  superblock : journalSuperblockDecode (stored startLba) = some dataSectors
  dataSectors_lt : dataSectors + 1 ≤ sectorCount
  log : IsLog 0 (logSectors stored startLba dataSectors) records

/-- How many reads it takes to open a region that holds a journal. -/
def openReads (stored : ℕ → Sector) (startLba dataSectors : ℕ) (count : ℕ) : ℕ :=
  scanReads (logSectors stored startLba dataSectors) count + 1

section Open

variable {σ : Type u} {io : SectorIO σ Sector} {model : ReadModel io} {startLba sectorCount : ℕ}

/-- Every sector of the region can be read. -/
def RegionReadable (model : ReadModel io) (state : σ) (startLba sectorCount : ℕ) : Prop :=
  ∀ offset < sectorCount, model.readable state (startLba + offset)

variable {state : σ}

section

variable (hreadable : RegionReadable model state startLba sectorCount)
include hreadable

theorem RegionReadable.advance (reads : ℕ) :
    RegionReadable model (model.advance reads state) startLba sectorCount := by
  intro offset hoffset
  rw [model.readable_advance]
  exact hreadable offset hoffset

/-- Reads of a readable region only advance the device. -/
theorem RegionReadable.preserve :
    ReadsPreserve io (fun after ↦ ∃ reads, after = model.advance reads state) startLba
      sectorCount := by
  rintro offset hoffset _ ⟨reads, rfl⟩
  have hreadable := (hreadable.advance reads) offset hoffset
  refine ⟨reads + 1, ?_⟩
  rw [model.read_eq _ _ hreadable, model.advance_add]
  rfl

theorem RegionReadable.mono {fewer : ℕ} (hle : fewer ≤ sectorCount) :
    RegionReadable model state startLba fewer :=
  fun offset hoffset ↦ hreadable offset (hoffset.trans_le hle)

end

variable {dataSectors : ℕ}

theorem RegionReadable.data (hreadable : RegionReadable model state startLba sectorCount)
    (hroom : dataSectors + 1 ≤ sectorCount) : Readable model state startLba 0 dataSectors := by
  intro position _ hlast
  rw [Nat.add_assoc]
  exact hreadable (1 + position) (by omega)

variable {records : List JournalEntry}

/-- What opening does on a region that holds a journal, when no read fails. -/
theorem openLog_of_holds (hreadable : RegionReadable model state startLba (dataSectors + 1))
    (hholds : HoldsJournal (model.stored state) startLba sectorCount dataSectors records)
    (hclean : model.Clean (openReads (model.stored state) startLba dataSectors records.length)
      state) :
    openLog io startLba sectorCount state =
      (some (dataSectors, records.length, lastSequence 0 records),
        model.advance (openReads (model.stored state) startLba dataSectors records.length)
          state) := by
  have hstart : model.readable state startLba := hreadable 0 (Nat.succ_pos _)
  have hdata := (hreadable.advance 1).data le_rfl
  rw [openReads, ReadModel.clean_succ_iff] at hclean
  have hopen : openRegion io startLba sectorCount state = (some dataSectors, model.next state) :=
    openRegion_eq_some_iff.mpr ⟨hholds.two_le, hholds.le_maximum, hholds.fits,
      ⟨_, ReadModel.read_of_clean hstart hclean.1, hholds.superblock⟩, hholds.dataSectors_lt⟩
  have hlog := hholds.log
  rw [← model.stored_next] at hlog hclean ⊢
  have hscan := scanRecords_of_isLog 0 hdata hlog hclean.2
  rw [openLog, hopen]
  simp only [scanLog]
  have hnext : model.advance 1 state = model.next state := rfl
  rw [hnext, Nat.zero_add] at hscan
  rw [hscan]
  rfl

section

variable (hreadable : RegionReadable model state startLba sectorCount)
include hreadable

/-- Opening succeeds only on a region that holds a journal, and only if no read fails. -/
theorem holds_of_openLog {result : ℕ × ℕ × ℕ}
    (hopen : (openLog io startLba sectorCount state).1 = some result) :
    ∃ dataSectors records,
      HoldsJournal (model.stored state) startLba sectorCount dataSectors records ∧
      model.Clean (openReads (model.stored state) startLba dataSectors records.length) state := by
  rw [openLog] at hopen
  rcases hregion : openRegion io startLba sectorCount state with ⟨_ | dataSectors, next⟩
  · rw [hregion] at hopen
    cases hopen
  · obtain ⟨htwo, hmaximum, hfits, ⟨sector, hread, hsuperblock⟩, hroom⟩ :=
      openRegion_eq_some_iff.mp hregion
    have hstart : model.readable state startLba := hreadable 0 (by omega)
    cases hfails : model.fails state with
    | true =>
      rw [ReadModel.read_of_fails hstart hfails] at hread
      cases hread
    | false =>
      rw [ReadModel.read_of_clean hstart hfails] at hread
      cases hread
      rw [hregion] at hopen
      have hdata := (hreadable.advance 1).data hroom
      rcases hscan : scanLog io startLba dataSectors (model.next state) with ⟨_ | found, final⟩
      · simp only [hscan] at hopen
        cases hopen
      · obtain ⟨records, hlog, hclean, -⟩ :=
          (scanLog_eq_some_iff hdata).mp (congrArg Prod.fst hscan)
        rw [model.stored_advance] at hlog hclean
        exact ⟨dataSectors, records, ⟨htwo, hmaximum, hfits, hsuperblock, hroom, hlog⟩,
          (model.clean_succ_iff _ _).mpr ⟨hfails, hclean⟩⟩

/-- Reads aside, opening changes nothing. -/
theorem openLog_state :
    ∃ reads, (openLog io startLba sectorCount state).2 = model.advance reads state :=
  openLog_preserves hreadable.preserve ⟨0, rfl⟩

/-- Opening fails, or the region holds a journal and no read fails. -/
theorem openLog_cases :
    (∃ reads, openLog io startLba sectorCount state = (none, model.advance reads state)) ∨
      ∃ dataSectors records,
        HoldsJournal (model.stored state) startLba sectorCount dataSectors records ∧
        model.Clean (openReads (model.stored state) startLba dataSectors records.length) state := by
  cases hopen : (openLog io startLba sectorCount state).1 with
  | none => exact .inl ((openLog_state hreadable).imp fun _ ↦ Prod.ext hopen)
  | some => exact .inr (holds_of_openLog hreadable hopen)

end

/-! ### The callers of the scan -/

/-- Hands a list of records to a consumer until it refuses one. -/
def applyRecords {τ : Type v} (apply : JournalEntry → τ → Bool × τ) :
    List JournalEntry → τ → Bool × τ
  | [], consumer => (true, consumer)
  | entry :: records, consumer =>
    match apply entry consumer with
    | (false, consumer) => (false, consumer)
    | (true, consumer) => applyRecords apply records consumer

/-- The second pass hands the decoded records to the consumer; all of them are read when it
accepts them all. -/
theorem replayRecords_of_decode {τ : Type v} (apply : JournalEntry → τ → Bool × τ) {index : ℕ}
    (consumer : τ) (hreadable : Readable model state startLba index records.length)
    (hclean : model.Clean records.length state)
    (hdecode : ∀ position (hposition : position < records.length),
      journalDecode (model.stored state (startLba + 1 + (index + position))) =
        some records[position]) :
    ∃ reads, replayRecords io apply startLba records.length index state consumer =
      ((applyRecords apply records consumer).1, model.advance reads state,
        (applyRecords apply records consumer).2) := by
  induction records generalizing index state consumer with
  | nil => exact ⟨0, rfl⟩
  | cons entry records ih =>
    rw [List.length_cons, ReadModel.clean_succ_iff] at hclean
    have hfirst : journalDecode (model.stored state (startLba + 1 + index)) = some entry :=
      hdecode 0 (Nat.succ_pos _)
    rw [List.length_cons, replayRecords, ReadModel.read_of_clean hreadable.head hclean.1]
    simp only [hfirst, applyRecords]
    rcases apply entry consumer with ⟨accepted, consumer⟩
    cases accepted with
    | false => exact ⟨1, rfl⟩
    | true =>
      have hrest : ∀ position (hposition : position < records.length),
          journalDecode (model.stored (model.next state) (startLba + 1 + (index + 1 + position))) =
            some records[position] := by
        intro position hposition
        rw [model.stored_next, Nat.add_assoc index, Nat.add_comm 1 position]
        exact hdecode (position + 1) (Nat.succ_lt_succ hposition)
      obtain ⟨reads, hreads⟩ := ih consumer hreadable.tail hclean.2 hrest
      exact ⟨reads + 1, hreads⟩

/-- The result of a replay whose consumer returned `outcome` on all records. -/
def replayResult {τ : Type v} (records : List JournalEntry) (outcome : Bool × τ) : Option ℕ :=
  if outcome.1 then some records.length else none

/-- A replay of a region that holds a journal hands its records to the consumer in order. -/
theorem journalReplay_of_holds {τ : Type v}
    (hreadable : RegionReadable model state startLba (dataSectors + 1))
    (apply : JournalEntry → τ → Bool × τ) (consumer : τ)
    (hholds : HoldsJournal (model.stored state) startLba sectorCount dataSectors records)
    (hclean : model.Clean
      (openReads (model.stored state) startLba dataSectors records.length + records.length)
      state) :
    ∃ reads, journalReplay io apply startLba sectorCount state consumer =
      (replayResult records (applyRecords apply records consumer), model.advance reads state,
        (applyRecords apply records consumer).2) := by
  rw [ReadModel.clean_add_iff] at hclean
  rw [journalReplay, openLog_of_holds hreadable hholds hclean.1]
  have hbound : records.length ≤ dataSectors := by
    simpa using hholds.log.length_le
  generalize hopened : openReads (model.stored state) startLba dataSectors records.length = opened
    at hclean
  have hdata : Readable model (model.advance opened state) startLba 0 records.length := by
    intro position _ hlast
    exact (hreadable.advance opened).data le_rfl position (Nat.zero_le _) (by omega)
  have hdecode : ∀ position (hposition : position < records.length),
      journalDecode (model.stored (model.advance opened state)
        (startLba + 1 + (0 + position))) = some records[position] := by
    intro position hposition
    rw [model.stored_advance, Nat.zero_add]
    exact hholds.log.decode_getElem hposition (getElem?_logSectors _ _ (by omega))
  obtain ⟨reads, hreads⟩ := replayRecords_of_decode apply consumer hdata hclean.2 hdecode
  refine ⟨opened + reads, ?_⟩
  simp only [hreads, model.advance_add]
  rcases applyRecords apply records consumer with ⟨accepted, consumer⟩
  cases accepted <;> rfl

section

variable (hreadable : RegionReadable model state startLba sectorCount)
include hreadable

/-- Whatever the reads return, a replay only reads, and it succeeds only on a region that holds a
journal. -/
theorem journalReplay_cases {τ : Type v} (apply : JournalEntry → τ → Bool × τ) (consumer : τ) :
    ∃ reads, (journalReplay io apply startLba sectorCount state consumer).2.1 =
        model.advance reads state ∧
      ((journalReplay io apply startLba sectorCount state consumer).1.isSome →
        ∃ dataSectors records,
          HoldsJournal (model.stored state) startLba sectorCount dataSectors records) := by
  rcases openLog_cases hreadable with ⟨reads, hopen⟩ | ⟨dataSectors, records, hholds, hclean⟩
  · rw [journalReplay, hopen]
    exact ⟨reads, rfl, by simp⟩
  · have hbound : records.length ≤ dataSectors := by simpa using hholds.log.length_le
    generalize hopened : openReads (model.stored state) startLba dataSectors records.length =
      opened at hclean
    have hroom : 0 + records.length < sectorCount := by linarith [hholds.dataSectors_lt]
    obtain ⟨reads, hreads⟩ := replayRecords_preserves apply hreadable.preserve hroom consumer
      ⟨opened, rfl⟩
    refine ⟨reads, ?_, fun _ ↦ ⟨dataSectors, records, hholds⟩⟩
    rw [← hreads, journalReplay,
      openLog_of_holds (hreadable.mono hholds.dataSectors_lt) hholds (hopened ▸ hclean), hopened]
    simp only
    rcases replayRecords io apply startLba records.length 0 (model.advance opened state) consumer
      with ⟨accepted, final, after⟩
    cases accepted <;> rfl

/-- Reads aside, asking for the next sequence changes nothing. -/
theorem journalNextSequence_state :
    ∃ reads, (journalNextSequence io startLba sectorCount state).2 =
      model.advance reads state := by
  obtain ⟨reads, hreads⟩ := openLog_state hreadable
  refine ⟨reads, ?_⟩
  rw [journalNextSequence, ← hreads]
  rcases openLog io startLba sectorCount state with ⟨_ | ⟨_, _, lastSequence⟩, final⟩
  · rfl
  · by_cases hexhausted : lastSequence = 0xFFFFFFFF
    · simp only [if_pos hexhausted]
    · simp only [if_neg hexhausted]

/-- What an append checks of its request on a log with these records. -/
structure Appendable (dataSectors : ℕ) (records : List JournalEntry) (request : JournalRequest) :
    Prop where
  room : records.length < dataSectors
  newer : lastSequence 0 records < request.sequence
  encodable : request.Encodable

section

variable (hholds : HoldsJournal (model.stored state) startLba sectorCount dataSectors records)
  (hclean : model.Clean (openReads (model.stored state) startLba dataSectors records.length) state)
include hholds hclean

/-- The next sequence of a region that holds a journal. -/
theorem journalNextSequence_of_holds :
    journalNextSequence io startLba sectorCount state =
      (if lastSequence 0 records = 0xFFFFFFFF then none else some (lastSequence 0 records + 1),
        model.advance (openReads (model.stored state) startLba dataSectors records.length)
          state) := by
  rw [journalNextSequence, openLog_of_holds (hreadable.mono hholds.dataSectors_lt) hholds hclean]
  simp only
  split_ifs <;> rfl

/-- An append to a region that holds a journal publishes its record in the first free slot. -/
theorem journalAppend_of_holds {request : JournalRequest}
    (happendable : Appendable dataSectors records request) :
    journalAppend io startLba sectorCount request state =
      publishRecord io (startLba + 1 + records.length) request.preparedSector
        (model.advance (openReads (model.stored state) startLba dataSectors records.length)
          state) := by
  have hnewer := sequenceIsNewer_iff.mpr happendable.newer
  have hencode : journalEncodeInternal request false = some request.preparedSector :=
    (journalEncodeInternal_eq_some_iff _ _ _).mpr ⟨happendable.encodable, rfl⟩
  rw [journalAppend, openLog_of_holds (hreadable.mono hholds.dataSectors_lt) hholds hclean]
  simp only [hnewer, hencode, not_true_eq_false, or_false, ge_iff_le]
  rw [if_neg (not_le.mpr happendable.room)]

end

/-- An append that does not publish its record only reads. -/
theorem journalAppend_refused {request : JournalRequest} (hrefused : ∀ dataSectors records,
      HoldsJournal (model.stored state) startLba sectorCount dataSectors records →
      model.Clean (openReads (model.stored state) startLba dataSectors records.length) state →
      ¬Appendable dataSectors records request) :
    ∃ reads, journalAppend io startLba sectorCount request state =
      (false, model.advance reads state) := by
  rcases openLog_cases hreadable with ⟨reads, hopen⟩ | ⟨dataSectors, records, hholds, hclean⟩
  · exact ⟨reads, by rw [journalAppend, hopen]⟩
  · refine ⟨openReads (model.stored state) startLba dataSectors records.length, ?_⟩
    rw [journalAppend, openLog_of_holds (hreadable.mono hholds.dataSectors_lt) hholds hclean]
    simp only
    by_cases hslot : records.length ≥ dataSectors ∨
        ¬sequenceIsNewer request.sequence (lastSequence 0 records)
    · rw [if_pos hslot]
    · rw [if_neg hslot]
      cases hencode : journalEncodeInternal request false with
      | none => rfl
      | some sector =>
        refine absurd ⟨?_, ?_, ?_⟩ (hrefused dataSectors records hholds hclean)
        · exact not_le.mp (not_or.mp hslot).1
        · exact sequenceIsNewer_iff.mp (not_not.mp (not_or.mp hslot).2)
        · exact ((journalEncodeInternal_eq_some_iff _ _ _).mp hencode).1

end

end Open

/-! ### What an append does to its device -/

section Preserves

variable {σ : Type u} {io : SectorIO σ Sector} {property : σ → Prop} {state : σ}

/-- An append does to the device no more than its reads and writes do. -/
theorem journalAppend_preserves
    (hread : ∀ lba state, property state → property (io.read lba state).2)
    (hwrite : ∀ lba sector state, property state → property (io.write lba sector state).2)
    (startLba sectorCount : ℕ) (request : JournalRequest) (hstate : property state) :
    property (journalAppend io startLba sectorCount request state).2 := by
  have hpublish : ∀ lba prepared {state : σ}, property state →
      property (publishRecord io lba prepared state).2 := by
    intro lba prepared state hstate
    have hfirst := hwrite lba prepared state hstate
    rw [publishRecord]
    generalize io.write lba prepared state = first at hfirst ⊢
    obtain ⟨_ | _, after⟩ := first
    · exact hfirst
    · have hsecond := hwrite lba (commitSector prepared) after hfirst
      dsimp only
      generalize io.write lba (commitSector prepared) after = second at hsecond ⊢
      obtain ⟨_ | _, final⟩ := second
      · exact hsecond
      · have hback := hread lba final hsecond
        dsimp only
        generalize io.read lba final = third at hback ⊢
        obtain ⟨_ | _, last⟩ := third <;> exact hback
  have hopen : property (openLog io startLba sectorCount state).2 :=
    openLog_preserves (fun offset _ ↦ hread (startLba + offset)) hstate
  rw [journalAppend]
  generalize openLog io startLba sectorCount state = result at hopen ⊢
  obtain ⟨_ | ⟨dataSectors, count, lastSequence⟩, after⟩ := result
  · exact hopen
  · dsimp only
    split_ifs
    · exact hopen
    · cases journalEncodeInternal request false with
      | none => exact hopen
      | some sector => exact hpublish _ _ hopen

end Preserves

/-! ### The two writes of an append -/

theorem logSectors_update (stored : ℕ → Sector) (startLba dataSectors index : ℕ)
    (sector : Sector) :
    logSectors (Function.update stored (startLba + 1 + index) sector) startLba dataSectors =
      (logSectors stored startLba dataSectors).set index sector := by
  apply List.ext_getElem
  · simp
  · intro position hposition _
    simp only [logSectors, dataSectorsFrom, List.getElem_map, List.getElem_range', List.getElem_set,
      Nat.zero_add, Nat.one_mul, Function.update_apply]
    refine if_congr ?_ rfl rfl
    omega

namespace HoldsJournal

variable {stored : ℕ → Sector} {startLba sectorCount dataSectors : ℕ}
  {records : List JournalEntry} {request : JournalRequest}

section

variable (hholds : HoldsJournal stored startLba sectorCount dataSectors records)
include hholds

/-- A sector written into the first free slot changes the log there and nothing else. -/
theorem update_slot {sector : Sector} {more : List JournalEntry}
    (hlog : IsLog 0 ((logSectors stored startLba dataSectors).set records.length sector) more) :
    HoldsJournal (Function.update stored (startLba + 1 + records.length) sector) startLba
      sectorCount dataSectors more where
  two_le := hholds.two_le
  le_maximum := hholds.le_maximum
  fits := hholds.fits
  superblock := by
    rw [Function.update_of_ne (by omega)]
    exact hholds.superblock
  dataSectors_lt := hholds.dataSectors_lt
  log := by
    rw [logSectors_update]
    exact hlog

/-- The first write of an append leaves the records as they are. -/
theorem prepare (happendable : Appendable dataSectors records request) :
    HoldsJournal (Function.update stored (startLba + 1 + records.length) request.preparedSector)
      startLba sectorCount dataSectors records := by
  refine hholds.update_slot (hholds.log.set_torn ?_ ?_)
  · rw [length_logSectors]
    exact happendable.room
  · exact tornAfter_iff.mpr ⟨request.entry,
      journalDecodePrepared_preparedSector happendable.encodable,
      sequenceIsNewer_iff.mpr happendable.newer⟩

/-- The second write of an append adds its record. -/
theorem commit (happendable : Appendable dataSectors records request) :
    HoldsJournal
      (Function.update stored (startLba + 1 + records.length) (commitSector request.preparedSector))
      startLba sectorCount dataSectors (records ++ [request.entry]) := by
  refine hholds.update_slot (hholds.log.set_record ?_ ?_)
  · rw [length_logSectors]
    exact happendable.room
  · exact recordAfter_eq_some_iff.mpr ⟨journalDecode_commitSector happendable.encodable,
      sequenceIsNewer_iff.mpr happendable.newer⟩

end

/-- A region whose data sectors are all empty holds a journal without records. -/
theorem of_empty (htwo : 2 ≤ sectorCount) (hmaximum : sectorCount ≤ 1025)
    (hfits : regionFits startLba sectorCount = true)
    (hsuperblock : journalSuperblockDecode (stored startLba) = some dataSectors)
    (hroom : dataSectors + 1 ≤ sectorCount)
    (hempty : ∀ index < dataSectors, stored (startLba + 1 + index) = Buffer.zeroed 512) :
    HoldsJournal stored startLba sectorCount dataSectors [] := by
  refine ⟨htwo, hmaximum, hfits, hsuperblock, hroom, .of_all_empty 0 fun sector hsector ↦ ?_⟩
  obtain ⟨index, hindex, rfl⟩ := List.mem_map.mp hsector
  rw [sectorIsEmpty_iff]
  exact hempty index (by simpa using hindex)

theorem length_le (hholds : HoldsJournal stored startLba sectorCount dataSectors records) :
    records.length ≤ dataSectors := by
  simpa using hholds.log.length_le

/-- A region holds one journal. -/
theorem unique (hholds : HoldsJournal stored startLba sectorCount dataSectors records)
    {otherSectors : ℕ} {others : List JournalEntry}
    (hother : HoldsJournal stored startLba sectorCount otherSectors others) :
    dataSectors = otherSectors ∧ records = others := by
  have hsuperblock := hholds.superblock.symm.trans hother.superblock
  obtain rfl : dataSectors = otherSectors := Option.some.inj hsuperblock
  exact ⟨rfl, hholds.log.unique hother.log⟩

end HoldsJournal

end EfesOS.Fs.Journal
