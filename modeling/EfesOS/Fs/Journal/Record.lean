import EfesOS.Foundation.ByteBuffer
import EfesOS.Foundation.CString

/-!
# Journal records and superblocks

The on-disk encoding of `fs/journal.c`. A record occupies one sector: a 20-byte header with magic,
version, operation, sequence, name length, content length and checksum, a 32-byte name field, a
256-byte content field, zero bytes, and in the last four bytes the commit marker. A prepared
record is the same sector with a zero marker; the log publishes a record by writing the prepared
sector first and the committed sector over it.

`journalDecodeInternal_eq_some_iff` says what the decoder accepts (`Accepts`) and what it returns
(`entryOf`). `journalDecode_commitSector` and `journalDecodePrepared_preparedSector` are the round
trips of the two sectors an append writes, and `journalSuperblockDecode_encode` is the round trip of
the superblock. `journalDecode_eq_none_of_marker` keeps a prepared record from being read as a
committed one.
-/

set_option autoImplicit false

namespace EfesOS.Fs.Journal

open EfesOS.Foundation

abbrev journalMagic : ℕ := 0x314A5346
abbrev journalVersion : ℕ := 1
abbrev journalCommit : ℕ := 0xC0DE17ED
abbrev journalSuperblockMagic : ℕ := 0x314A5346
abbrev journalSuperblockVersion : ℕ := 1
abbrev journalHeaderSize : ℕ := 20
abbrev journalSectorSize : ℕ := 512
abbrev journalNameMax : ℕ := 32
abbrev journalContentMax : ℕ := 256
abbrev journalMaxDataSectors : ℕ := 1024
abbrev journalOperationWrite : ℕ := 1
abbrev journalOperationRemove : ℕ := 2
abbrev journalPayloadSize : ℕ := journalNameMax + journalContentMax
abbrev journalCommitOffset : ℕ := journalSectorSize - 4

/-- One disk sector. -/
abbrev Sector := Buffer 512

/-- A decoded record, `struct journal_entry`. -/
@[ext]
structure JournalEntry where
  operation : ℕ
  sequence : ℕ
  nameLength : ℕ
  contentLength : ℕ
  name : Buffer 32
  content : Buffer 256
deriving DecidableEq

/-! ### Checksums -/

/-- One bit of the reflected CRC-32 division. -/
def crc32Bit (crc : BitVec 32) : BitVec 32 :=
  (crc >>> 1) ^^^ (if crc &&& 1 ≠ 0 then 0xEDB88320 else 0)

/-- One byte of the checksum: the byte is mixed in and eight bits are divided out. -/
def crc32Byte (crc : BitVec 32) (byte : UInt8) : BitVec 32 :=
  crc32Bit^[8] (crc ^^^ byte.toBitVec.setWidth 32)

def crc32Update (crc : BitVec 32) (data : List UInt8) : BitVec 32 := data.foldl crc32Byte crc

/-- The record checksum covers the header before the checksum field and the payload after it. -/
def recordCrc (sector : Sector) : ℕ :=
  let crc := crc32Update 0xFFFFFFFF (sector.slice 0 16)
  let crc := crc32Update crc (sector.slice journalHeaderSize journalPayloadSize)
  (~~~crc).toNat

def superblockCrc (sector : Sector) : ℕ := (~~~(crc32Update 0xFFFFFFFF (sector.slice 0 12))).toNat

/-! ### Names -/

/-- A null pointer counts as an unterminated string. -/
def boundedLength (value : Pointer) (limit : ℕ) : ℕ :=
  match value with
  | none => limit
  | some bytes => CString.boundedLength bytes limit

/-- The characters a name may not contain: controls, blanks and both slashes. -/
def forbiddenCharacter (character : UInt8) : Bool :=
  character < 0x21 || character = 0x2F || character = 0x5C

def validName (name : ℕ → UInt8) (length : ℕ) : Bool :=
  if length = 0 ∨ length ≥ journalNameMax then false
  else (List.range length).all fun index ↦ !forbiddenCharacter (name index)

/-- The bytes behind a pointer, zero past its end and everywhere behind a null pointer. -/
def pointerByte (value : Pointer) (index : ℕ) : UInt8 := (value.getD []).getD index 0

/-! ### Encoding -/

/-- The record arguments of `journal_encode` and `journal_append`. The sequence is an unsigned
32-bit integer. -/
structure JournalRequest where
  operation : ℕ
  sequence : ℕ
  name : Pointer
  content : Pointer
  contentLength : ℕ
  sequence_lt : sequence < 4294967296

namespace JournalRequest

variable (request : JournalRequest)

def nameLength : ℕ := boundedLength request.name journalNameMax

/-- The zeroed sector with every field of a record but the checksum and the marker. -/
def filledSector : Sector :=
  let sector : Sector := Buffer.zeroed 512
  let sector := sector.writeU32 0 journalMagic
  let sector := sector.writeU16 4 journalVersion
  let sector := sector.writeU16 6 request.operation
  let sector := sector.writeU32 8 request.sequence
  let sector := sector.writeU16 12 request.nameLength
  let sector := sector.writeU16 14 request.contentLength
  let sector := sector.setBytes journalHeaderSize
    ((List.range request.nameLength).map (pointerByte request.name))
  sector.setBytes (journalHeaderSize + journalNameMax)
    ((List.range request.contentLength).map (pointerByte request.content))

/-- The record with its checksum and a zero marker, the first of the two sectors of an append. -/
def preparedSector : Sector :=
  request.filledSector.writeU32 16 (recordCrc request.filledSector)

end JournalRequest

/-- The commit marker written over a prepared record, the second sector of an append. -/
def commitSector (sector : Sector) : Sector := sector.writeU32 journalCommitOffset journalCommit

def journalEncodeInternal (request : JournalRequest) (committed : Bool) : Option Sector :=
  if request.sequence = 0 ∨
      (request.operation ≠ journalOperationWrite ∧ request.operation ≠ journalOperationRemove) ∨
      request.contentLength > journalContentMax ∨
      (request.contentLength ≠ 0 ∧ request.content = none) then none
  else if ¬validName (pointerByte request.name) request.nameLength ∨
      (request.operation = journalOperationRemove ∧ request.contentLength ≠ 0) then none
  else
    some (if committed then commitSector request.preparedSector else request.preparedSector)

def journalEncode (request : JournalRequest) : Option Sector := journalEncodeInternal request true

/-! ### Decoding -/

/-- Whether some byte of the sector from offset `first` up to `last` is not zero. -/
def anyNonzero (sector : Sector) (first last : ℕ) : Bool :=
  (List.range' first (last - first)).any fun index ↦ sector.byteAt index ≠ 0

/-- The entry the decoder copies out of an accepted sector. -/
def entryOf (sector : Sector) : JournalEntry where
  operation := sector.readU16 6
  sequence := sector.readU32 8
  nameLength := sector.readU16 12
  contentLength := sector.readU16 14
  name := Vector.ofFn fun index : Fin 32 ↦ sector.byteAt (journalHeaderSize + index)
  content := Vector.ofFn fun index : Fin 256 ↦
    sector.byteAt (journalHeaderSize + journalNameMax + index)

/-- The marker of a committed or of a prepared record. -/
def expectedMarker : Bool → ℕ
  | true => journalCommit
  | false => 0

def journalDecodeInternal (sector : Sector) (requireCommit : Bool) : Option JournalEntry :=
  if sector.readU32 0 ≠ journalMagic ∨ sector.readU16 4 ≠ journalVersion ∨
      sector.readU32 8 = 0 ∨
      sector.readU32 journalCommitOffset ≠ expectedMarker requireCommit then none
  else if sector.readU16 6 ≠ journalOperationWrite ∧
      sector.readU16 6 ≠ journalOperationRemove then none
  else
    let nameLength := sector.readU16 12
    let contentLength := sector.readU16 14
    if ¬validName (fun index ↦ sector.byteAt (journalHeaderSize + index)) nameLength ∨
        contentLength > journalContentMax ∨
        (sector.readU16 6 = journalOperationRemove ∧ contentLength ≠ 0) ∨
        sector.readU32 16 ≠ recordCrc sector then none
    else if sector.byteAt (journalHeaderSize + nameLength) ≠ 0 then none
    else if anyNonzero sector (journalHeaderSize + (nameLength + 1))
        (journalHeaderSize + journalNameMax) then none
    else if anyNonzero sector (journalHeaderSize + journalNameMax + contentLength)
        (journalHeaderSize + journalNameMax + journalContentMax) then none
    else if anyNonzero sector (journalHeaderSize + journalPayloadSize) journalCommitOffset then none
    else some (entryOf sector)

def journalDecode (sector : Sector) : Option JournalEntry := journalDecodeInternal sector true

def journalDecodePrepared (sector : Sector) : Option JournalEntry :=
  journalDecodeInternal sector false

/-! ### Superblocks -/

def journalSuperblockEncode (dataSectors : ℕ) : Option Sector :=
  if dataSectors = 0 ∨ dataSectors > journalMaxDataSectors then none
  else
    let sector : Sector := Buffer.zeroed 512
    let sector := sector.writeU32 0 journalSuperblockMagic
    let sector := sector.writeU16 4 journalSuperblockVersion
    let sector := sector.writeU16 6 dataSectors
    let sector := sector.writeU32 8 0
    let sector := sector.writeU32 12 (superblockCrc sector)
    some (sector.writeU32 journalCommitOffset journalCommit)

def journalSuperblockDecode (sector : Sector) : Option ℕ :=
  if sector.readU32 0 ≠ journalSuperblockMagic ∨ sector.readU16 4 ≠ journalSuperblockVersion ∨
      sector.readU32 journalCommitOffset ≠ journalCommit then none
  else
    let count := sector.readU16 6
    if count = 0 ∨ count > journalMaxDataSectors ∨ sector.readU32 8 ≠ 0 ∨
        sector.readU32 12 ≠ superblockCrc sector then none
    else if anyNonzero sector 16 journalCommitOffset then none
    else some count

/-- Every byte of the sector is zero. -/
def sectorIsEmpty (sector : Sector) : Bool := !anyNonzero sector 0 journalSectorSize

/-! ### What the decoder accepts -/

theorem anyNonzero_eq_false_iff (sector : Sector) (first last : ℕ) :
    anyNonzero sector first last = false ↔
      ∀ position, first ≤ position → position < last → sector.byteAt position = 0 := by
  simp only [anyNonzero, List.any_eq_false, List.mem_range'_1, decide_eq_true_eq, not_not, and_imp]
  constructor
  · intro h position hfirst hlast
    exact h position hfirst (by omega)
  · intro h position hfirst hlast
    exact h position hfirst (by omega)

theorem sectorIsEmpty_iff (sector : Sector) :
    sectorIsEmpty sector = true ↔ sector = Buffer.zeroed 512 := by
  rw [sectorIsEmpty, Bool.not_eq_true', anyNonzero_eq_false_iff]
  constructor
  · intro h
    apply Buffer.ext_byteAt
    intro offset hoffset
    rw [h offset (Nat.zero_le _) hoffset, Buffer.byteAt_zeroed]
  · rintro rfl position _ _
    exact Buffer.byteAt_zeroed position

theorem validName_iff (name : ℕ → UInt8) (length : ℕ) :
    validName name length = true ↔ 0 < length ∧ length < 32 ∧
      ∀ index < length, forbiddenCharacter (name index) = false := by
  unfold validName journalNameMax
  split_ifs with hlength
  · simp only [false_iff, not_and]
    omega
  · simp only [List.all_eq_true, List.mem_range, Bool.not_eq_true', not_or] at hlength ⊢
    exact ⟨fun h ↦ ⟨by omega, by omega, h⟩, fun h ↦ h.2.2⟩

/-- Everything `journalDecodeInternal` checks of a sector: a header with a known operation, a
non-zero sequence and the expected marker, a legal name, a content length that fits, a matching
checksum, and zero bytes in every part of the sector no field uses. -/
structure Accepts (sector : Sector) (requireCommit : Bool) : Prop where
  magic : sector.readU32 0 = journalMagic
  version : sector.readU16 4 = journalVersion
  operation : sector.readU16 6 = journalOperationWrite ∨ sector.readU16 6 = journalOperationRemove
  sequence : sector.readU32 8 ≠ 0
  name : validName (fun index ↦ sector.byteAt (20 + index)) (sector.readU16 12) = true
  content : sector.readU16 14 ≤ 256
  remove : sector.readU16 6 = journalOperationRemove → sector.readU16 14 = 0
  crc : sector.readU32 16 = recordCrc sector
  namePadding : ∀ position, 20 + sector.readU16 12 ≤ position → position < 52 →
    sector.byteAt position = 0
  contentPadding : ∀ position, 52 + sector.readU16 14 ≤ position → position < 308 →
    sector.byteAt position = 0
  reserved : ∀ position, 308 ≤ position → position < 508 → sector.byteAt position = 0
  marker : sector.readU32 508 = expectedMarker requireCommit

/-- The decoder returns the entry of exactly the sectors it accepts. -/
theorem journalDecodeInternal_eq_some_iff (sector : Sector) (requireCommit : Bool)
    (entry : JournalEntry) :
    journalDecodeInternal sector requireCommit = some entry ↔
      Accepts sector requireCommit ∧ entry = entryOf sector := by
  simp only [journalDecodeInternal, Option.ite_none_left_eq_some, Bool.not_eq_true,
    anyNonzero_eq_false_iff, not_or, not_not, journalHeaderSize, journalNameMax,
    journalContentMax, journalPayloadSize, journalCommitOffset, journalSectorSize]
  constructor
  · rintro ⟨⟨hmagic, hversion, hsequence, hmarker⟩, hoperation, ⟨hvalid, hlength, hremove, hcrc⟩,
      hend, hname, hcontent, hreserved, hentry⟩
    refine ⟨⟨hmagic, hversion, by tauto, hsequence, by simpa using hvalid, by omega, by tauto,
      hcrc, ?_, hcontent, hreserved, hmarker⟩, (Option.some.inj hentry).symm⟩
    intro position hfirst hlast
    rcases eq_or_lt_of_le hfirst with heq | hlt
    · rw [← heq]
      exact hend
    · exact hname position (by omega) hlast
  · rintro ⟨haccepts, rfl⟩
    obtain ⟨hpositive, hlength, _⟩ := (validName_iff _ _).mp haccepts.name
    have hcontent := haccepts.content
    have hremove := haccepts.remove
    have hoperation := haccepts.operation
    refine ⟨⟨haccepts.magic, haccepts.version, haccepts.sequence, haccepts.marker⟩, by tauto,
      ⟨by simp [haccepts.name], by omega, by tauto, haccepts.crc⟩,
      haccepts.namePadding _ le_rfl (by omega), ?_, haccepts.contentPadding, haccepts.reserved,
      rfl⟩
    intro position hfirst hlast
    exact haccepts.namePadding position (by omega) hlast

/-! ### Round trips -/

/-- Everything `journalEncodeInternal` checks of its arguments. -/
structure JournalRequest.Encodable (request : JournalRequest) : Prop where
  sequence : request.sequence ≠ 0
  operation : request.operation = journalOperationWrite ∨
    request.operation = journalOperationRemove
  content : request.contentLength ≤ 256
  pointer : request.contentLength ≠ 0 → request.content ≠ none
  name : validName (pointerByte request.name) request.nameLength = true
  remove : request.operation = journalOperationRemove → request.contentLength = 0

/-- The encoder produces its sector for exactly the encodable requests. -/
theorem journalEncodeInternal_eq_some_iff (request : JournalRequest) (committed : Bool)
    (sector : Sector) :
    journalEncodeInternal request committed = some sector ↔ request.Encodable ∧
      sector = if committed then commitSector request.preparedSector
        else request.preparedSector := by
  simp only [journalEncodeInternal, Option.ite_none_left_eq_some, not_or, not_not,
    journalContentMax]
  constructor
  · rintro ⟨⟨hsequence, hoperation, hcontent, hpointer⟩, ⟨hname, hremove⟩, hsector⟩
    exact ⟨⟨hsequence, by tauto, by omega, by tauto, by simpa using hname, by tauto⟩,
      (Option.some.inj hsector).symm⟩
  · rintro ⟨hrequest, rfl⟩
    have hcontent := hrequest.content
    have hoperation := hrequest.operation
    have hpointer := hrequest.pointer
    have hremove := hrequest.remove
    exact ⟨⟨hrequest.sequence, by tauto, by omega, by tauto⟩, ⟨by simp [hrequest.name], by tauto⟩,
      rfl⟩

/-- The entry that encodes a request: its fields, with name and content padded by zeros. -/
def JournalRequest.entry (request : JournalRequest) : JournalEntry where
  operation := request.operation
  sequence := request.sequence
  nameLength := request.nameLength
  contentLength := request.contentLength
  name := Vector.ofFn fun index : Fin 32 ↦
    if index < request.nameLength then pointerByte request.name index else 0
  content := Vector.ofFn fun index : Fin 256 ↦
    if index < request.contentLength then pointerByte request.content index else 0

theorem byteAt_filledSector_name (request : JournalRequest) {position : ℕ} (hfirst : 20 ≤ position)
    (hlast : position < 52) :
    request.filledSector.byteAt position =
      if position - 20 < request.nameLength then pointerByte request.name (position - 20)
      else 0 := by
  unfold JournalRequest.filledSector journalHeaderSize journalNameMax
  rw [Buffer.byteAt_setBytes_of_disjoint _ (by omega)]
  split_ifs with hinside
  · rw [Buffer.byteAt_setBytes_of_mem _ hfirst (by simp; omega) (by omega)]
    simp [List.getD_eq_getElem?_getD, hinside]
  · rw [Buffer.byteAt_setBytes_of_disjoint _ (by simp; omega)]
    simp (disch := omega)

section Fields

variable {request : JournalRequest} (hrequest : request.Encodable)

include hrequest

theorem JournalRequest.Encodable.nameLength_lt : request.nameLength < 32 :=
  ((validName_iff _ _).mp hrequest.name).2.1

theorem byteAt_filledSector_content {position : ℕ} (hfirst : 52 ≤ position) :
    request.filledSector.byteAt position =
      if position - 52 < request.contentLength then pointerByte request.content (position - 52)
      else 0 := by
  have hname := hrequest.nameLength_lt
  have hcontent := hrequest.content
  unfold JournalRequest.filledSector journalHeaderSize journalNameMax
  split_ifs with hinside
  · rw [Buffer.byteAt_setBytes_of_mem _ (by omega) (by simp; omega) (by omega)]
    simp [List.getD_eq_getElem?_getD, hinside]
  · rw [Buffer.byteAt_setBytes_of_disjoint _ (by simp; omega),
      Buffer.byteAt_setBytes_of_disjoint _ (by simp; omega)]
    simp (disch := omega)

theorem readU16_filledSector_operation :
    request.filledSector.readU16 6 = request.operation := by
  have hoperation : request.operation < 65536 := by
    rcases hrequest.operation with h | h <;> rw [h] <;> norm_num
  unfold JournalRequest.filledSector journalHeaderSize journalNameMax
  simp (disch := omega)

theorem readU16_filledSector_nameLength :
    request.filledSector.readU16 12 = request.nameLength := by
  have hname := hrequest.nameLength_lt
  unfold JournalRequest.filledSector journalHeaderSize journalNameMax
  simp (disch := omega)

theorem readU16_filledSector_contentLength :
    request.filledSector.readU16 14 = request.contentLength := by
  have hcontent := hrequest.content
  unfold JournalRequest.filledSector journalHeaderSize journalNameMax
  simp (disch := omega)

end Fields

theorem readU32_filledSector_magic (request : JournalRequest) :
    request.filledSector.readU32 0 = journalMagic := by
  unfold JournalRequest.filledSector journalHeaderSize journalNameMax
  simp (disch := omega)
  exact Buffer.readU32_writeU32 _ (by norm_num) (by norm_num)

theorem readU16_filledSector_version (request : JournalRequest) :
    request.filledSector.readU16 4 = journalVersion := by
  unfold JournalRequest.filledSector journalHeaderSize journalNameMax
  simp (disch := omega)
  exact Buffer.readU16_writeU16 _ (by norm_num) (by norm_num)

theorem readU32_filledSector_sequence (request : JournalRequest) :
    request.filledSector.readU32 8 = request.sequence := by
  unfold JournalRequest.filledSector journalHeaderSize journalNameMax
  simp (disch := omega)
  exact Buffer.readU32_writeU32 _ (by norm_num) request.sequence_lt

/-- The checksum reads the header before its own field and the payload, nothing else. -/
theorem recordCrc_congr {first second : Sector}
    (h : ∀ position, position < 16 ∨ 20 ≤ position ∧ position < 308 →
      first.byteAt position = second.byteAt position) :
    recordCrc first = recordCrc second := by
  have hheader : first.slice 0 16 = second.slice 0 16 :=
    Buffer.slice_congr fun position _ hlast ↦ h position (Or.inl (by omega))
  have hpayload : first.slice journalHeaderSize journalPayloadSize =
      second.slice journalHeaderSize journalPayloadSize :=
    Buffer.slice_congr fun position hfirst hlast ↦ h position (Or.inr ⟨hfirst, hlast⟩)
  unfold recordCrc
  rw [hheader, hpayload]

variable {request : JournalRequest} {sector : Sector}

/-- A sector that carries the fields of a request, its checksum and a marker decodes to the entry
of the request, whatever the marker asks for. -/
theorem accepts_of_stamped (hrequest : request.Encodable) (committed : Bool)
    (hbytes : ∀ position, position < 16 ∨ 20 ≤ position ∧ position < 508 →
      sector.byteAt position = request.filledSector.byteAt position)
    (hcrc : sector.readU32 16 = recordCrc request.filledSector)
    (hmarker : sector.readU32 508 = expectedMarker committed) :
    Accepts sector committed ∧ entryOf sector = request.entry := by
  have hname := hrequest.nameLength_lt
  have hcontent := hrequest.content
  have hread16 : ∀ offset, offset + 2 ≤ 16 →
      sector.readU16 offset = request.filledSector.readU16 offset := by
    intro offset hoffset
    exact Buffer.readU16_congr fun position _ hlast ↦ hbytes position (Or.inl (by omega))
  have hread32 : ∀ offset, offset + 4 ≤ 16 →
      sector.readU32 offset = request.filledSector.readU32 offset := by
    intro offset hoffset
    exact Buffer.readU32_congr fun position _ hlast ↦ hbytes position (Or.inl (by omega))
  have hoperation : sector.readU16 6 = request.operation := by
    rw [hread16 6 (by norm_num), readU16_filledSector_operation hrequest]
  have hnameLength : sector.readU16 12 = request.nameLength := by
    rw [hread16 12 (by norm_num), readU16_filledSector_nameLength hrequest]
  have hcontentLength : sector.readU16 14 = request.contentLength := by
    rw [hread16 14 (by norm_num), readU16_filledSector_contentLength hrequest]
  have hsequence : sector.readU32 8 = request.sequence := by
    rw [hread32 8 (by norm_num), readU32_filledSector_sequence]
  have hnameByte : ∀ index < 32, sector.byteAt (20 + index) =
      if index < request.nameLength then pointerByte request.name index else 0 := by
    intro index hindex
    rw [hbytes _ (Or.inr ⟨by omega, by omega⟩),
      byteAt_filledSector_name request (by omega) (by omega), Nat.add_sub_cancel_left]
  have hcontentByte : ∀ index, index < 456 → sector.byteAt (52 + index) =
      if index < request.contentLength then pointerByte request.content index else 0 := by
    intro index hindex
    rw [hbytes _ (Or.inr ⟨by omega, by omega⟩), byteAt_filledSector_content hrequest (by omega),
      Nat.add_sub_cancel_left]
  constructor
  · refine ⟨?_, ?_, ?_, ?_, ?_, ?_, ?_, ?_, ?_, ?_, ?_, hmarker⟩
    · rw [hread32 0 (by norm_num), readU32_filledSector_magic]
    · rw [hread16 4 (by norm_num), readU16_filledSector_version]
    · rw [hoperation]
      exact hrequest.operation
    · rw [hsequence]
      exact hrequest.sequence
    · obtain ⟨hpositive, _, hcharacters⟩ := (validName_iff _ _).mp hrequest.name
      rw [hnameLength, validName_iff]
      refine ⟨hpositive, hname, fun index hindex ↦ ?_⟩
      rw [hnameByte index (by omega), if_pos hindex]
      exact hcharacters index hindex
    · rw [hcontentLength]
      exact hcontent
    · rw [hoperation, hcontentLength]
      exact hrequest.remove
    · rw [hcrc]
      exact recordCrc_congr fun position hposition ↦ (hbytes position (by omega)).symm
    · intro position hfirst hlast
      obtain ⟨index, rfl⟩ : ∃ index, position = 20 + index := ⟨position - 20, by omega⟩
      rw [hnameByte index (by omega), if_neg (by omega)]
    · intro position hfirst hlast
      obtain ⟨index, rfl⟩ : ∃ index, position = 52 + index := ⟨position - 52, by omega⟩
      rw [hcontentByte index (by omega), if_neg (by omega)]
    · intro position hfirst hlast
      obtain ⟨index, rfl⟩ : ∃ index, position = 52 + index := ⟨position - 52, by omega⟩
      rw [hcontentByte index (by omega), if_neg (by omega)]
  · apply JournalEntry.ext hoperation hsequence hnameLength hcontentLength
    · apply Vector.ext
      intro index hindex
      simpa only [entryOf, JournalRequest.entry, Vector.getElem_ofFn] using hnameByte index hindex
    · apply Vector.ext
      intro index hindex
      simpa only [entryOf, JournalRequest.entry, Vector.getElem_ofFn, journalHeaderSize,
        journalNameMax] using hcontentByte index (by omega)

theorem byteAt_preparedSector (request : JournalRequest) {position : ℕ}
    (h : position < 16 ∨ 20 ≤ position) :
    request.preparedSector.byteAt position = request.filledSector.byteAt position :=
  Buffer.byteAt_writeU32_of_disjoint _ _ h

theorem recordCrc_lt (sector : Sector) : recordCrc sector < 4294967296 := BitVec.isLt _

theorem readU32_preparedSector_crc (request : JournalRequest) :
    request.preparedSector.readU32 16 = recordCrc request.filledSector :=
  Buffer.readU32_writeU32 _ (by norm_num) (recordCrc_lt _)

/-- The marker field of a prepared record is clear. -/
theorem readU32_preparedSector_marker (hrequest : request.Encodable) :
    request.preparedSector.readU32 508 = 0 := by
  have hcontent := hrequest.content
  have hzero : ∀ position, 508 ≤ position → request.preparedSector.byteAt position = 0 := by
    intro position hposition
    rw [byteAt_preparedSector _ (by omega), byteAt_filledSector_content hrequest (by omega),
      if_neg (by omega)]
  rw [Buffer.readU32_eq, hzero 508 le_rfl, hzero 509 (by omega), hzero 510 (by omega),
    hzero 511 (by omega)]
  rfl

/-- The first sector of an append is the request's record with its marker clear. -/
theorem journalDecodePrepared_preparedSector (hrequest : request.Encodable) :
    journalDecodePrepared request.preparedSector = some request.entry := by
  obtain ⟨haccepts, hentry⟩ := accepts_of_stamped hrequest false
    (fun position hposition ↦ byteAt_preparedSector request (by omega))
    (readU32_preparedSector_crc request) (readU32_preparedSector_marker hrequest)
  exact (journalDecodeInternal_eq_some_iff _ _ _).mpr ⟨haccepts, hentry.symm⟩

/-- The second sector of an append is the request's committed record. -/
theorem journalDecode_commitSector (hrequest : request.Encodable) :
    journalDecode (commitSector request.preparedSector) = some request.entry := by
  have hcrc : (commitSector request.preparedSector).readU32 16 =
      recordCrc request.filledSector := by
    rw [commitSector, Buffer.readU32_writeU32_of_disjoint _ _ (by norm_num),
      readU32_preparedSector_crc]
  have hbytes : ∀ position, position < 16 ∨ 20 ≤ position ∧ position < 508 →
      (commitSector request.preparedSector).byteAt position =
        request.filledSector.byteAt position := by
    intro position hposition
    rw [commitSector, Buffer.byteAt_writeU32_of_disjoint _ _ (by norm_num; omega),
      byteAt_preparedSector request (by omega)]
  obtain ⟨haccepts, hentry⟩ := accepts_of_stamped hrequest true hbytes hcrc
    (Buffer.readU32_writeU32 _ (by norm_num) (by norm_num))
  exact (journalDecodeInternal_eq_some_iff _ _ _).mpr ⟨haccepts, hentry.symm⟩

/-- A sector whose marker is clear is not a committed record. -/
theorem journalDecode_eq_none_of_marker (h : sector.readU32 508 = 0) :
    journalDecode sector = none := by
  rw [Option.eq_none_iff_forall_ne_some]
  intro entry hentry
  have hmarker := ((journalDecodeInternal_eq_some_iff _ _ _).mp hentry).1.marker
  rw [h] at hmarker
  simp [expectedMarker, journalCommit] at hmarker

variable {entry : JournalEntry}

/-- The marker of a sector that decodes as prepared is clear. -/
theorem marker_of_journalDecodePrepared (h : journalDecodePrepared sector = some entry) :
    sector.readU32 508 = 0 :=
  ((journalDecodeInternal_eq_some_iff _ _ _).mp h).1.marker

/-- A record, committed or prepared, is never an empty sector. -/
theorem sectorIsEmpty_eq_false_of_decode {committed : Bool}
    (h : journalDecodeInternal sector committed = some entry) :
    sectorIsEmpty sector = false := by
  have hmagic := ((journalDecodeInternal_eq_some_iff _ _ _).mp h).1.magic
  rw [← Bool.not_eq_true, sectorIsEmpty_iff]
  rintro rfl
  exact absurd hmagic (by decide)

/-- A decoded sequence is a non-zero 32-bit integer. -/
theorem sequence_of_decode {committed : Bool}
    (h : journalDecodeInternal sector committed = some entry) :
    entry.sequence ≠ 0 ∧ entry.sequence < 4294967296 := by
  obtain ⟨haccepts, rfl⟩ := (journalDecodeInternal_eq_some_iff _ _ _).mp h
  exact ⟨haccepts.sequence, Buffer.readU32_lt _ _⟩

/-! ### The superblock round trip -/

theorem superblockCrc_congr {first second : Sector}
    (h : ∀ position < 12, first.byteAt position = second.byteAt position) :
    superblockCrc first = superblockCrc second := by
  have hheader : first.slice 0 12 = second.slice 0 12 :=
    Buffer.slice_congr fun position _ hlast ↦ h position (by omega)
  unfold superblockCrc
  rw [hheader]

theorem superblockCrc_lt (sector : Sector) : superblockCrc sector < 4294967296 := BitVec.isLt _

/-- A superblock decodes to the sector count it was encoded with. -/
theorem journalSuperblockDecode_encode {dataSectors : ℕ}
    (h : journalSuperblockEncode dataSectors = some sector) :
    journalSuperblockDecode sector = some dataSectors := by
  simp only [journalSuperblockEncode, Option.ite_none_left_eq_some, not_or, not_lt,
    Option.some.injEq, journalMaxDataSectors, journalCommitOffset, journalSectorSize,
    gt_iff_lt] at h
  obtain ⟨⟨hpositive, hbound⟩, rfl⟩ := h
  simp only [journalSuperblockDecode, Option.ite_none_left_eq_some, not_or, not_not, not_lt,
    Bool.not_eq_true, anyNonzero_eq_false_iff, Option.some.injEq, journalMaxDataSectors,
    journalCommitOffset, journalSectorSize, gt_iff_lt]
  simp (disch := omega)
  refine ⟨⟨?_, ?_, ?_⟩, ⟨hpositive, hbound, ?_⟩, ?_⟩
  · exact Buffer.readU32_writeU32 _ (by norm_num) (by norm_num)
  · exact Buffer.readU16_writeU16 _ (by norm_num) (by norm_num)
  · exact Buffer.readU32_writeU32 _ (by norm_num) (by norm_num)
  · rw [Buffer.readU32_writeU32 _ (by norm_num) (superblockCrc_lt _)]
    apply superblockCrc_congr
    intro position hposition
    simp (disch := omega)
  · intro position hfirst hlast
    simp (disch := omega)

theorem journalSuperblockEncode_isSome {dataSectors : ℕ} (hpositive : 0 < dataSectors)
    (hbound : dataSectors ≤ 1024) : (journalSuperblockEncode dataSectors).isSome := by
  unfold journalSuperblockEncode
  rw [if_neg (by simp only [journalMaxDataSectors]; omega)]
  rfl

end EfesOS.Fs.Journal
