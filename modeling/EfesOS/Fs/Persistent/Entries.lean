import EfesOS.Fs.Persistent.Model

/-!
# Records of persistent calls

A persistent write or remove that passes its preflight encodes a record, decodes it again and later
applies the decoded entry. `buildEntry_of_encodable` says that the decoded entry is the one of the
request, `entryFile_writeRequest` that it names exactly the file the caller asked for, and
`Applicable` holds of it, so that the RAM filesystem never refuses it.
-/

set_option autoImplicit false

namespace EfesOS.Fs.Persistent

open EfesOS.Foundation EfesOS.Drivers EfesOS.Fs.Journal EfesOS.Fs.Ramfs EfesOS.Fs.Vfs

theorem buildEntry_of_encodable {request : JournalRequest} (hrequest : request.Encodable) :
    buildEntry request = some request.entry := by
  have hencode : journalEncode request = some (commitSector request.preparedSector) :=
    (journalEncodeInternal_eq_some_iff request true _).mpr ⟨hrequest, rfl⟩
  rw [buildEntry, hencode]
  exact journalDecode_commitSector hrequest

/-! ### The fields of an entry -/

section Fields

variable {request : JournalRequest} {name : List UInt8}

section

variable (hname : request.name = some name) (hlegal : LegalName (CString.text name))
include hname hlegal

theorem nameLength_of_legal :
    request.nameLength = (CString.text name).length := by
  have hshort : (CString.text name).length < 32 := hlegal.short
  have hbounded : request.nameLength = min 32 (CString.text name).length := by
    rw [JournalRequest.nameLength, hname, boundedLength, CString.boundedLength_eq]
  rw [hbounded, min_eq_right hshort.le]

/-- The name field of an entry is the name, padded with terminators. -/
theorem entryName_entry :
    entryName request.entry =
      CString.text name ++ List.replicate (32 - (CString.text name).length) 0 := by
  have hshort : (CString.text name).length < 32 := hlegal.short
  have hlength := nameLength_of_legal hname hlegal
  apply List.ext_getElem
  · simp [entryName]
    omega
  · intro index hindex _
    simp only [entryName, JournalRequest.entry, Vector.getElem_toList, Vector.getElem_ofFn,
      hlength, pointerByte, hname, Option.getD_some, List.getElem_append]
    split_ifs with hinside
    · exact CString.getD_eq_getElem_text hinside
    · simp

theorem text_entryName :
    CString.text (entryName request.entry) = CString.text name := by
  rw [entryName_entry hname hlegal]
  exact CString.text_append_replicate (fun _ ↦ CString.ne_zero_of_mem_text) _

theorem byteAt_name_nameLength :
    request.entry.name.byteAt request.entry.nameLength = 0 := by
  have hshort : (CString.text name).length < 32 := hlegal.short
  have hlength : request.entry.nameLength = (CString.text name).length :=
    nameLength_of_legal hname hlegal
  rw [hlength, Buffer.byteAt, dif_pos hshort]
  simp [JournalRequest.entry, nameLength_of_legal hname hlegal]

end

/-- The content bytes of an entry whose length is that of the contents. -/
theorem entryContents_entry {contents : List UInt8} (hcontents : request.content = some contents)
    (hlength : request.contentLength = (CString.text contents).length)
    (hshort : (CString.text contents).length < 256) :
    entryContents request.entry = CString.text contents := by
  apply List.ext_getElem
  · simp [entryContents, JournalRequest.entry, hlength]
    omega
  · intro index hindex hinside
    simp only [entryContents, JournalRequest.entry, List.getElem_take, Vector.getElem_toList,
      Vector.getElem_ofFn, hlength, pointerByte, hcontents, Option.getD_some]
    rw [if_pos hinside]
    exact CString.getD_eq_getElem_text hinside

section

variable (hname : request.name = some name) (hlegal : LegalName (CString.text name))
include hname hlegal

/-- A name the RAM filesystem accepts is one the journal accepts. -/
theorem journalValidName_of_legal :
    Journal.validName (pointerByte request.name) request.nameLength = true := by
  rw [nameLength_of_legal hname hlegal, Journal.validName_iff]
  refine ⟨hlegal.positive, hlegal.short, fun index hindex ↦ hlegal.characters _ ?_⟩
  rw [hname, pointerByte, Option.getD_some, CString.getD_eq_getElem_text hindex]
  exact List.getElem_mem hindex

/-- The RAM filesystem accepts the entry of a request with a legal name. -/
theorem applicable_entry (hcontent : request.contentLength < ramfsContentMax)
    (hoperation : request.operation = journalOperationRemove ∧ request.contentLength = 0 ∨
      request.operation = journalOperationWrite ∧
        ∀ byte ∈ entryContents request.entry, byte ≠ 0) :
    Applicable request.entry := by
  have hlength : request.entry.nameLength = (CString.text name).length :=
    nameLength_of_legal hname hlegal
  refine ⟨?_, ?_, hcontent, byteAt_name_nameLength hname hlegal, ?_, hoperation⟩
  · rw [hlength]
    exact hlegal.positive
  · rw [hlength]
    exact hlegal.short
  · rw [text_entryName hname hlegal]
    exact hlegal

end

end Fields

/-! ### Writes and removes -/

section Calls

variable {name contents : List UInt8} {sequence : UInt32}

/-- The journal accepts every write that passes the preflight of the RAM filesystem. -/
theorem writeRequest_encodable (hsequence : sequence ≠ 0)
    (hlegal : LegalName (CString.text name))
    (hshort : (CString.text contents).length < ramfsContentMax) :
    (writeRequest sequence (some name) (some contents)
      (CString.text contents).length).Encodable where
  sequence := fun hzero ↦ hsequence (UInt32.toNat_inj.mp hzero)
  operation := Or.inl rfl
  content := hshort.le
  pointer := fun _ ↦ Option.some_ne_none _
  name := journalValidName_of_legal rfl hlegal
  remove := fun hremove ↦ absurd (show 1 = 2 from hremove) (by decide)

theorem removeRequest_encodable (hsequence : sequence ≠ 0)
    (hlegal : LegalName (CString.text name)) : (removeRequest sequence (some name)).Encodable where
  sequence := fun hzero ↦ hsequence (UInt32.toNat_inj.mp hzero)
  operation := Or.inr rfl
  content := Nat.zero_le _
  pointer := fun hlength ↦ absurd rfl hlength
  name := journalValidName_of_legal rfl hlegal
  remove := fun _ ↦ rfl

section

variable (hlegal : LegalName (CString.text name))
include hlegal

/-- The RAM filesystem accepts the entry of every write that passed its preflight. -/
theorem writeRequest_applicable (hshort : (CString.text contents).length < ramfsContentMax) :
    Applicable (writeRequest sequence (some name) (some contents)
      (CString.text contents).length).entry := by
  refine applicable_entry rfl hlegal hshort (Or.inr ⟨rfl, ?_⟩)
  rw [entryContents_entry rfl rfl hshort]
  exact fun _ ↦ CString.ne_zero_of_mem_text

theorem removeRequest_applicable :
    Applicable (removeRequest sequence (some name)).entry :=
  applicable_entry rfl hlegal (Nat.zero_lt_succ _) (Or.inl ⟨rfl, rfl⟩)

/-- The entry of a write names the file the caller asked for. -/
theorem entryFile_writeRequest (hshort : (CString.text contents).length < ramfsContentMax) :
    entryFile (writeRequest sequence (some name) (some contents)
      (CString.text contents).length).entry = RamfsFile.copy name contents := by
  refine RamfsFile.copy_congr (text_entryName rfl hlegal) ?_
  rw [entryContents_entry rfl rfl hshort, CString.text_text]

/-- The listing after the entry of a write. -/
theorem applyListing_writeRequest (hshort : (CString.text contents).length < ramfsContentMax)
    {files : List RamfsFile} (hroom : HasRoom (CString.text name) files) :
    applyListing (writeRequest sequence (some name) (some contents)
        (CString.text contents).length).entry files =
      some (writeListing (RamfsFile.copy name contents) files) := by
  rw [applyListing_write (writeRequest_applicable hlegal hshort) rfl, text_entryName rfl hlegal,
    if_pos hroom, entryFile_writeRequest hlegal hshort]

/-- The listing after the entry of a remove. -/
theorem applyListing_removeRequest (files : List RamfsFile) :
    applyListing (removeRequest sequence (some name)).entry files =
      some (removeListing (CString.text name) files) := by
  rw [applyListing_remove (removeRequest_applicable hlegal) rfl, text_entryName rfl hlegal]

end

end Calls

end EfesOS.Fs.Persistent
