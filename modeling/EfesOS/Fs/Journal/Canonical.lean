import EfesOS.Fs.Journal.Record

/-!
# The encodings of the journal are canonical

A record is encoded in one way only: what `journal_encode` writes is decoded to the arguments it was
given, and a sector that `journal_decode` accepts is what `journal_encode` writes for the decoded
fields (`journalEncode_of_describes`). The checksum, the paddings and the length fields leave no
byte open. The same holds of superblocks (`journalSuperblockEncode_of_decode`). The two formats
share their magic number and their version, and a sector is never accepted as both
(`journalDecodeInternal_of_superblock`).
-/

set_option autoImplicit false

namespace EfesOS.Fs.Journal

open EfesOS.Foundation

/-- The arguments of an encoder are the fields of an entry. -/
structure JournalRequest.Describes (request : JournalRequest) (entry : JournalEntry) : Prop where
  operation : request.operation = entry.operation
  sequence : request.sequence = entry.sequence
  name : request.name = some entry.name.toList
  content : request.content = some entry.content.toList
  contentLength : request.contentLength = entry.contentLength

/-- The arguments that a decoded sector gives. -/
def requestOf (sector : Sector) : JournalRequest where
  operation := (entryOf sector).operation
  sequence := (entryOf sector).sequence
  name := some (entryOf sector).name.toList
  content := some (entryOf sector).content.toList
  contentLength := (entryOf sector).contentLength
  sequence_lt := Buffer.readU32_lt _ _

theorem describes_requestOf (sector : Sector) : (requestOf sector).Describes (entryOf sector) :=
  ⟨rfl, rfl, rfl, rfl, rfl⟩

/-- The fields of an entry determine the arguments. -/
theorem JournalRequest.Describes.unique {first second : JournalRequest} {entry : JournalEntry}
    (hfirst : first.Describes entry) (hsecond : second.Describes entry) : first = second := by
  obtain ⟨hoperation, hsequence, hname, hcontent, hlength⟩ := hfirst
  obtain ⟨hoperation', hsequence', hname', hcontent', hlength'⟩ := hsecond
  cases first
  cases second
  simp_all only

section Record

variable {sector : Sector} {committed : Bool}

theorem pointerByte_name (sector : Sector) {index : ℕ} (h : index < 32) :
    pointerByte (requestOf sector).name index = sector.byteAt (20 + index) := by
  unfold pointerByte requestOf entryOf
  simp [List.getD_eq_getElem?_getD, h]

theorem pointerByte_content (sector : Sector) {index : ℕ} (h : index < 256) :
    pointerByte (requestOf sector).content index = sector.byteAt (52 + index) := by
  unfold pointerByte requestOf entryOf
  simp [List.getD_eq_getElem?_getD, h]
  rfl

theorem nonzero_of_allowed {character : UInt8} (h : forbiddenCharacter character = false) :
    character ≠ 0 := by
  rintro rfl
  exact absurd h (by decide)

section

variable (h : Accepts sector committed)
include h

/-- The name ends where its length says. -/
theorem Accepts.nameLength_eq :
    (requestOf sector).nameLength = sector.readU16 12 := by
  obtain ⟨-, hlength, hcharacters⟩ := (validName_iff _ _).mp h.name
  refine CString.boundedLength_of_terminated hlength.le (fun index hindex ↦ ?_) ?_
  · change pointerByte (requestOf sector).name index ≠ 0
    rw [pointerByte_name sector (hindex.trans hlength)]
    exact nonzero_of_allowed (hcharacters index hindex)
  · exact (pointerByte_name sector hlength).trans (h.namePadding _ le_rfl (by omega))

theorem Accepts.encodable : (requestOf sector).Encodable where
  sequence := h.sequence
  operation := h.operation
  content := h.content
  pointer _ := Option.some_ne_none _
  name := by
    obtain ⟨hpositive, hlength, hcharacters⟩ := (validName_iff _ _).mp h.name
    rw [h.nameLength_eq, validName_iff]
    refine ⟨hpositive, hlength, fun index hindex ↦ ?_⟩
    rw [pointerByte_name sector (hindex.trans hlength)]
    exact hcharacters index hindex
  remove := h.remove

/-- The encoder fills in what the sector holds. -/
theorem Accepts.filledSector_eq {position : ℕ}
    (hposition : position < 16 ∨ 20 ≤ position ∧ position < 508) :
    (requestOf sector).filledSector.byteAt position = sector.byteAt position := by
  have hencodable := h.encodable
  have hnameLength := h.nameLength_eq
  have hcontentLength : (requestOf sector).contentLength = sector.readU16 14 := rfl
  have hcontent := h.content
  rcases lt_or_ge position 20 with hheader | hpayload
  · rcases lt_or_ge position 4 with hmagic | _
    · have hread : (requestOf sector).filledSector.readU32 0 = sector.readU32 0 := by
        rw [readU32_filledSector_magic, h.magic]
      exact Buffer.byteAt_eq_of_readU32_eq hread (by omega) (by omega)
    rcases lt_or_ge position 6 with hversion | _
    · have hread : (requestOf sector).filledSector.readU16 4 = sector.readU16 4 := by
        rw [readU16_filledSector_version, h.version]
      exact Buffer.byteAt_eq_of_readU16_eq hread (by omega) (by omega)
    rcases lt_or_ge position 8 with hoperation | _
    · have hread : (requestOf sector).filledSector.readU16 6 = sector.readU16 6 := by
        rw [readU16_filledSector_operation hencodable]
        rfl
      exact Buffer.byteAt_eq_of_readU16_eq hread (by omega) (by omega)
    rcases lt_or_ge position 12 with hsequence | _
    · have hread : (requestOf sector).filledSector.readU32 8 = sector.readU32 8 := by
        rw [readU32_filledSector_sequence]
        rfl
      exact Buffer.byteAt_eq_of_readU32_eq hread (by omega) (by omega)
    rcases lt_or_ge position 14 with hname | _
    · have hread : (requestOf sector).filledSector.readU16 12 = sector.readU16 12 := by
        rw [readU16_filledSector_nameLength hencodable, hnameLength]
      exact Buffer.byteAt_eq_of_readU16_eq hread (by omega) (by omega)
    · have hread : (requestOf sector).filledSector.readU16 14 = sector.readU16 14 := by
        rw [readU16_filledSector_contentLength hencodable, hcontentLength]
      exact Buffer.byteAt_eq_of_readU16_eq hread (by omega) (by omega)
  · rcases lt_or_ge position 52 with hname | hbehind
    · obtain ⟨index, rfl⟩ := Nat.exists_eq_add_of_le hpayload
      rw [byteAt_filledSector_name _ hpayload hname, Nat.add_sub_cancel_left, hnameLength]
      split_ifs with hinside
      · exact pointerByte_name sector (by omega)
      · exact (h.namePadding _ (by omega) hname).symm
    · obtain ⟨index, rfl⟩ := Nat.exists_eq_add_of_le hbehind
      rw [byteAt_filledSector_content hencodable hbehind, Nat.add_sub_cancel_left, hcontentLength]
      split_ifs with hinside
      · exact pointerByte_content sector (by omega)
      · rcases lt_or_ge (52 + index) 308 with hpadding | hreserved
        · exact (h.contentPadding _ (by omega) hpadding).symm
        · exact (h.reserved _ hreserved (by omega)).symm

theorem Accepts.recordCrc_eq :
    recordCrc (requestOf sector).filledSector = recordCrc sector :=
  recordCrc_congr fun _ hposition ↦ h.filledSector_eq (by omega)

end

/-- The encoder writes the sector again. -/
theorem Accepts.journalEncode_requestOf (h : Accepts sector true) :
    journalEncode (requestOf sector) = some sector := by
  refine (journalEncodeInternal_eq_some_iff _ _ _).mpr ⟨h.encodable, ?_⟩
  refine Buffer.ext_byteAt fun position hposition ↦ ?_
  change _ = ((requestOf sector).preparedSector.writeU32 508 journalCommit).byteAt position
  rcases lt_or_ge position 508 with hbefore | hmarker
  · rw [Buffer.byteAt_writeU32_of_disjoint _ _ (.inl hbefore)]
    by_cases hcrc : 16 ≤ position ∧ position < 20
    · have hread : sector.readU32 16 = (requestOf sector).preparedSector.readU32 16 := by
        rw [readU32_preparedSector_crc, h.recordCrc_eq, h.crc]
      exact Buffer.byteAt_eq_of_readU32_eq hread hcrc.1 (by omega)
    · rw [byteAt_preparedSector _ (by omega), h.filledSector_eq (by omega)]
  · have hread : sector.readU32 508 =
        ((requestOf sector).preparedSector.writeU32 508 journalCommit).readU32 508 := by
      rw [Buffer.readU32_writeU32 _ (by norm_num) (by norm_num)]
      exact h.marker
    exact Buffer.byteAt_eq_of_readU32_eq hread hmarker hposition

end Record

variable {sector : Sector}

/-- A sector that decodes is what the encoder writes for its fields. -/
theorem journalEncode_of_describes {entry : JournalEntry} {request : JournalRequest}
    (h : journalDecode sector = some entry) (hrequest : request.Describes entry) :
    journalEncode request = some sector := by
  obtain ⟨haccepts, rfl⟩ := (journalDecodeInternal_eq_some_iff _ _ _).mp h
  rw [hrequest.unique (describes_requestOf sector)]
  exact haccepts.journalEncode_requestOf

/-! ### Superblocks -/

/-- Everything `journal_superblock_decode` checks of a sector. -/
structure AcceptsSuperblock (sector : Sector) : Prop where
  magic : sector.readU32 0 = journalSuperblockMagic
  version : sector.readU16 4 = journalSuperblockVersion
  count : 0 < sector.readU16 6 ∧ sector.readU16 6 ≤ journalMaxDataSectors
  unused : sector.readU32 8 = 0
  crc : sector.readU32 12 = superblockCrc sector
  reserved : ∀ position, 16 ≤ position → position < 508 → sector.byteAt position = 0
  marker : sector.readU32 508 = journalCommit

variable {dataSectors : ℕ}

theorem journalSuperblockDecode_eq_some_iff :
    journalSuperblockDecode sector = some dataSectors ↔
      AcceptsSuperblock sector ∧ dataSectors = sector.readU16 6 := by
  simp only [journalSuperblockDecode, Option.ite_none_left_eq_some, not_or, not_not, not_lt,
    Bool.not_eq_true, anyNonzero_eq_false_iff, Option.some.injEq, journalCommitOffset,
    journalSectorSize, gt_iff_lt]
  constructor
  · rintro ⟨⟨hmagic, hversion, hmarker⟩, ⟨hpositive, hbound, hunused, hcrc⟩, hreserved, rfl⟩
    exact ⟨⟨hmagic, hversion, ⟨Nat.pos_of_ne_zero hpositive, hbound⟩, hunused, hcrc, hreserved,
      hmarker⟩, rfl⟩
  · rintro ⟨haccepts, rfl⟩
    exact ⟨⟨haccepts.magic, haccepts.version, haccepts.marker⟩, ⟨haccepts.count.1.ne',
      haccepts.count.2, haccepts.unused, haccepts.crc⟩, haccepts.reserved, rfl⟩

/-- The fields of a superblock before its checksum. -/
def superblockFields (dataSectors : ℕ) : Sector :=
  ((((Buffer.zeroed 512 : Sector).writeU32 0 journalSuperblockMagic).writeU16 4
    journalSuperblockVersion).writeU16 6 dataSectors).writeU32 8 0

theorem journalSuperblockEncode_eq (hpositive : 0 < dataSectors)
    (hbound : dataSectors ≤ journalMaxDataSectors) :
    journalSuperblockEncode dataSectors =
      some (((superblockFields dataSectors).writeU32 12
        (superblockCrc (superblockFields dataSectors))).writeU32 508 journalCommit) := by
  unfold journalSuperblockEncode
  rw [if_neg (by omega)]
  rfl

theorem AcceptsSuperblock.fields_eq (h : AcceptsSuperblock sector) {position : ℕ}
    (hposition : position < 12 ∨ 16 ≤ position ∧ position < 508) :
    (superblockFields (sector.readU16 6)).byteAt position = sector.byteAt position := by
  have hcount := Buffer.readU16_lt sector 6
  generalize hdata : sector.readU16 6 = dataSectors at hcount
  unfold superblockFields
  rcases lt_or_ge position 16 with hheader | hreserved
  · rcases lt_or_ge position 4 with hmagic | _
    · refine Buffer.byteAt_eq_of_readU32_eq (Eq.trans ?_ h.magic.symm) (Nat.zero_le _) hmagic
      simp (disch := omega)
      exact Buffer.readU32_writeU32 _ (by norm_num) (by norm_num)
    rcases lt_or_ge position 6 with hversion | _
    · refine Buffer.byteAt_eq_of_readU16_eq (Eq.trans ?_ h.version.symm) (by omega) hversion
      simp (disch := omega)
      exact Buffer.readU16_writeU16 _ (by norm_num) (by norm_num)
    rcases lt_or_ge position 8 with hdataSectors | _
    · refine Buffer.byteAt_eq_of_readU16_eq (Eq.trans ?_ hdata.symm) (by omega) hdataSectors
      rw [Buffer.readU16_writeU32_of_disjoint _ _ (by norm_num),
        Buffer.readU16_writeU16 _ (by norm_num) hcount]
    · refine Buffer.byteAt_eq_of_readU32_eq (Eq.trans ?_ h.unused.symm) (by omega) (by omega)
      exact Buffer.readU32_writeU32 _ (by norm_num) (by norm_num)
  · rw [h.reserved position hreserved (by omega)]
    simp (disch := omega)

/-- A superblock that decodes is what the encoder writes for its count. -/
theorem journalSuperblockEncode_of_decode (h : journalSuperblockDecode sector = some dataSectors) :
    journalSuperblockEncode dataSectors = some sector := by
  obtain ⟨haccepts, rfl⟩ := journalSuperblockDecode_eq_some_iff.mp h
  have hcrc : superblockCrc (superblockFields (sector.readU16 6)) = superblockCrc sector :=
    superblockCrc_congr fun _ hposition ↦ haccepts.fields_eq (.inl hposition)
  rw [journalSuperblockEncode_eq haccepts.count.1 haccepts.count.2, hcrc]
  refine congrArg some (Buffer.ext_byteAt fun position hposition ↦ ?_)
  rcases lt_or_ge position 508 with hbefore | hmarker
  · rw [Buffer.byteAt_writeU32_of_disjoint _ _ (.inl hbefore)]
    by_cases hstamp : 12 ≤ position ∧ position < 16
    · refine Buffer.byteAt_eq_of_readU32_eq (Eq.trans ?_ haccepts.crc.symm) hstamp.1 (by omega)
      exact Buffer.readU32_writeU32 _ (by norm_num) (superblockCrc_lt _)
    · rw [Buffer.byteAt_writeU32_of_disjoint _ _ (by omega), haccepts.fields_eq (by omega)]
  · refine Buffer.byteAt_eq_of_readU32_eq (Eq.trans ?_ haccepts.marker.symm) hmarker hposition
    exact Buffer.readU32_writeU32 _ (by norm_num) (by norm_num)

/-- A superblock has a zero where a record has its sequence. -/
theorem journalDecodeInternal_of_superblock (h : journalSuperblockDecode sector = some dataSectors)
    (requireCommit : Bool) :
    journalDecodeInternal sector requireCommit = none := by
  obtain ⟨haccepts, -⟩ := journalSuperblockDecode_eq_some_iff.mp h
  rw [Option.eq_none_iff_forall_ne_some]
  intro entry hentry
  exact ((journalDecodeInternal_eq_some_iff _ _ _).mp hentry).1.sequence haccepts.unused

/-- The encodings are canonical: decoding undoes encoding and encoding undoes decoding, for records
and for superblocks, and no sector is both. -/
theorem journal_encodings_canonical :
    (∀ (request : JournalRequest) (sector : Sector), journalEncode request = some sector →
        journalDecode sector = some request.entry) ∧
      (∀ (sector : Sector) (entry : JournalEntry), journalDecode sector = some entry →
        (∃ request : JournalRequest, request.Describes entry) ∧
          ∀ request : JournalRequest, request.Describes entry →
            journalEncode request = some sector) ∧
      (∀ (dataSectors : ℕ) (sector : Sector), journalSuperblockEncode dataSectors = some sector ↔
        journalSuperblockDecode sector = some dataSectors) ∧
      ∀ (sector : Sector) (dataSectors : ℕ), journalSuperblockDecode sector = some dataSectors →
        journalDecode sector = none ∧ journalDecodePrepared sector = none := by
  refine ⟨fun request sector hencode ↦ ?_,
    fun sector entry hdecode ↦ ⟨?_, fun request hrequest ↦ ?_⟩,
    fun dataSectors sector ↦ ⟨journalSuperblockDecode_encode, journalSuperblockEncode_of_decode⟩,
    fun sector dataSectors hdecode ↦ ?_⟩
  · obtain ⟨hencodable, rfl⟩ := (journalEncodeInternal_eq_some_iff _ _ _).mp hencode
    exact journalDecode_commitSector hencodable
  · obtain ⟨-, rfl⟩ := (journalDecodeInternal_eq_some_iff _ _ _).mp hdecode
    exact ⟨requestOf sector, describes_requestOf sector⟩
  · exact journalEncode_of_describes hdecode hrequest
  · exact ⟨journalDecodeInternal_of_superblock hdecode true,
      journalDecodeInternal_of_superblock hdecode false⟩

/-- The write of a short note. -/
def noteRequest : JournalRequest where
  operation := journalOperationWrite
  sequence := 1
  name := some (CString.ascii "NOTE")
  content := some (CString.ascii "safe")
  contentLength := 4
  sequence_lt := by norm_num

theorem encodable_noteRequest : noteRequest.Encodable where
  sequence := by decide
  operation := .inl rfl
  content := by decide
  pointer _ := by decide
  name := by decide
  remove h := absurd h (by decide)

theorem journal_encodings_canonical_note :
    ∃ sector, journalEncode noteRequest = some sector ∧
      journalDecode sector = some noteRequest.entry ∧
      ∃ request : JournalRequest, request.Describes noteRequest.entry ∧
        journalEncode request = some sector := by
  obtain ⟨hdecode, hencode, -, -⟩ := journal_encodings_canonical
  have hsector := (journalEncodeInternal_eq_some_iff noteRequest true _).mpr
    ⟨encodable_noteRequest, rfl⟩
  obtain ⟨⟨request, hrequest⟩, hagain⟩ := hencode _ _ (hdecode _ _ hsector)
  exact ⟨_, hsector, hdecode _ _ hsector, request, hrequest, hagain request hrequest⟩

end EfesOS.Fs.Journal
