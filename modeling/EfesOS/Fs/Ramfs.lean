import EfesOS.Fs.Journal.Record

/-!
# The RAM filesystem

`fs/ramfs.c`: sixteen slots and a file count. A slot holds a name shorter than 32 bytes and
contents shorter than 256 bytes, both terminated strings; `RamfsFile` carries these bounds.

The slots below the count are the `listing`, the ordered list of files. `ramfsWriteFile_spec`,
`ramfsRemoveFile_spec` and `ramfsApplyJournalEntry_spec` state the operations on it: a write
replaces the file of that name in place or appends a new one, a remove deletes it and keeps the
order of the others, a journal entry does one or the other, and an operation that is refused leaves
the store as it is.
-/

set_option autoImplicit false

namespace EfesOS.Fs.Ramfs

open EfesOS.Foundation
open EfesOS.Fs.Journal (JournalEntry forbiddenCharacter journalOperationWrite
  journalOperationRemove)

abbrev ramfsMaxFiles : ℕ := 16
abbrev ramfsNameMax : ℕ := 32
abbrev ramfsContentMax : ℕ := 256

/-- A slot, `struct ramfs_file`: two terminated strings that fit their arrays. -/
@[ext]
structure RamfsFile where
  name : List UInt8
  contents : List UInt8
  name_text : CString.text name = name
  name_length : name.length < ramfsNameMax
  contents_text : CString.text contents = contents
  contents_length : contents.length < ramfsContentMax
deriving DecidableEq

/-- A slot filled by two bounded copies. -/
def RamfsFile.copy (name contents : List UInt8) : RamfsFile where
  name := CString.copyString name ramfsNameMax
  contents := CString.copyString contents ramfsContentMax
  name_text := CString.text_copyString _ _
  name_length := CString.length_copyString_lt _ (by decide)
  contents_text := CString.text_copyString _ _
  contents_length := CString.length_copyString_lt _ (by decide)

/-- A slot whose contents are replaced by a bounded copy. -/
def RamfsFile.withContents (file : RamfsFile) (contents : List UInt8) : RamfsFile where
  name := file.name
  contents := CString.copyString contents ramfsContentMax
  name_text := file.name_text
  name_length := file.name_length
  contents_text := CString.text_copyString _ _
  contents_length := CString.length_copyString_lt _ (by decide)

/-- The slots and the file count. Only the first `ramfsMaxFiles` slots are ever used. -/
structure Store where
  files : ℕ → RamfsFile
  fileCount : ℕ

/-! ### The source functions -/

def stringLength (value : Pointer) (limit : ℕ) : ℕ :=
  match value with
  | none => limit
  | some bytes => CString.boundedLength bytes limit

def validName (name : Pointer) : Bool :=
  let length := stringLength name ramfsNameMax
  if length = 0 ∨ length ≥ ramfsNameMax then false
  else ((name.getD []).take length).all fun character ↦ !forbiddenCharacter character

/-- The search loop: the index of the first file of that name. -/
def findFile (store : Store) (name : List UInt8) : Option ℕ :=
  (List.range store.fileCount).find? fun index ↦
    CString.stringEquals name (store.files index).name

def addFile (store : Store) (name contents : List UInt8) : Store :=
  if store.fileCount = ramfsMaxFiles then store
  else
    { files := Function.update store.files store.fileCount (RamfsFile.copy name contents)
      fileCount := store.fileCount + 1 }

/-- The store before the first call of `ramfs_init`. -/
def emptyStore : Store := ⟨fun _ ↦ RamfsFile.copy [] [], 0⟩

def ramfsInit (store : Store) : Store :=
  let store := { store with fileCount := 0 }
  let store := addFile store (CString.ascii "README") (CString.ascii "EfesOS RAM filesystem\n")
  let store := addFile store (CString.ascii "MOTD")
    (CString.ascii "Build, learn, and drink responsibly.\n")
  addFile store (CString.ascii "EFES") (CString.ascii "EfesOS RAM filesystem entry.\n")

def ramfsIsPristine (store : Store) : Bool :=
  store.fileCount = 3 ∧
    CString.stringEquals (store.files 0).name (CString.ascii "README") ∧
    CString.stringEquals (store.files 1).name (CString.ascii "MOTD") ∧
    CString.stringEquals (store.files 2).name (CString.ascii "EFES")

def ramfsFileContents (store : Store) (name : Pointer) : Pointer :=
  if ¬validName name then none
  else
    match findFile store (name.getD []) with
    | none => none
    | some index => some (store.files index).contents

/-- The content length that `ramfs_can_write_file` reports, `none` where it returns zero. -/
def ramfsCanWriteFile (store : Store) (name contents : Pointer) : Option ℕ :=
  if ¬validName name ∨ contents = none then none
  else
    let length := stringLength contents ramfsContentMax
    if length ≥ ramfsContentMax then none
    else if (findFile store (name.getD [])).isSome ∨ store.fileCount ≠ ramfsMaxFiles then
      some length
    else none

def ramfsWriteFile (store : Store) (name contents : Pointer) : Bool × Store :=
  if (ramfsCanWriteFile store name contents).isNone then (false, store)
  else
    match findFile store (name.getD []) with
    | some index =>
      let file := (store.files index).withContents (contents.getD [])
      (true, { store with files := Function.update store.files index file })
    | none => (true, addFile store (name.getD []) (contents.getD []))

/-- The loop that closes the gap of a removed file: `remaining` moves from slot `move` on. -/
def moveFiles : ℕ → ℕ → (ℕ → RamfsFile) → ℕ → RamfsFile
  | 0, _, files => files
  | remaining + 1, move, files =>
    moveFiles remaining (move + 1)
      (Function.update files (move - 1)
        (RamfsFile.copy (files move).name (files move).contents))

def ramfsRemoveFile (store : Store) (name : Pointer) : Bool × Store :=
  if ¬validName name then (false, store)
  else
    match findFile store (name.getD []) with
    | none => (false, store)
    | some index =>
      (true, { files := moveFiles (store.fileCount - (index + 1)) (index + 1) store.files
               fileCount := store.fileCount - 1 })

/-- The bytes behind the name field of an entry. -/
def entryName (entry : JournalEntry) : List UInt8 := entry.name.toList

/-- The content bytes of an entry, copied into a terminated buffer. -/
def entryContents (entry : JournalEntry) : List UInt8 :=
  entry.content.toList.take entry.contentLength

def ramfsApplyJournalEntry (entry : JournalEntry) (store : Store) : Bool × Store :=
  if entry.nameLength = 0 ∨ entry.nameLength ≥ ramfsNameMax ∨
      entry.contentLength ≥ ramfsContentMax ∨ entry.name.byteAt entry.nameLength ≠ 0 ∨
      ¬validName (some (entryName entry)) then (false, store)
  else if entry.operation = journalOperationRemove then
    if entry.contentLength ≠ 0 then (false, store)
    else if ramfsFileContents store (some (entryName entry)) = none then (true, store)
    else ramfsRemoveFile store (some (entryName entry))
  else if entry.operation ≠ journalOperationWrite then (false, store)
  else if (entryContents entry).any (· = 0) then (false, store)
  else ramfsWriteFile store (some (entryName entry)) (some (entryContents entry))

/-- The steps of `ramfs_self_test`: the result and the store it leaves. -/
def ramfsSelfTest (store : Store) : Bool × Store :=
  let test : Pointer := some (CString.ascii "TEST")
  let long : Pointer := some (CString.ascii "TOO_LONG_NAME_THAT_EXCEEDS_THE_LIMIT")
  let rejected : Pointer := some (CString.ascii "rejected")
  match ramfsWriteFile store test (some (CString.ascii "safe write\n")) with
  | (false, store) => (false, store)
  | (true, store) =>
    match ramfsFileContents store test with
    | none => (false, store)
    | some contents =>
      if ¬CString.stringEquals contents (CString.ascii "safe write\n") then (false, store)
      else
        match ramfsWriteFile store (some (CString.ascii "bad/name")) rejected with
        | (true, store) => (false, store)
        | (false, store) =>
          match ramfsWriteFile store long rejected with
          | (true, store) => (false, store)
          | (false, store) =>
            if ramfsFileContents store long ≠ none then (false, store)
            else
              match ramfsRemoveFile store test with
              | (false, store) => (false, store)
              | (true, store) => ((ramfsFileContents store test).isNone, store)

/-! ### Names -/

/-- A legal file name: one to 31 characters, none of them forbidden. -/
structure LegalName (name : List UInt8) : Prop where
  positive : 0 < name.length
  short : name.length < ramfsNameMax
  characters : ∀ character ∈ name, forbiddenCharacter character = false

theorem validName_iff (name : Pointer) :
    validName name = true ↔ ∃ bytes, name = some bytes ∧ LegalName (CString.text bytes) := by
  cases name with
  | none => simp [validName, stringLength]
  | some bytes =>
    have hlength : stringLength (some bytes) ramfsNameMax =
        min ramfsNameMax (CString.text bytes).length := CString.boundedLength_eq bytes _
    unfold validName
    simp only [hlength, Option.getD_some, Option.some.injEq, exists_eq_left']
    split_ifs with hbounds
    · simp only [false_iff]
      intro hlegal
      have hpositive := hlegal.positive
      have hshort := hlegal.short
      omega
    · have hshort : (CString.text bytes).length < ramfsNameMax := by omega
      rw [min_eq_right hshort.le, CString.take_eq_take_text le_rfl, List.take_length,
        List.all_eq_true]
      constructor
      · intro h
        exact ⟨by omega, hshort, fun character hcharacter ↦ by simpa using h character hcharacter⟩
      · intro hlegal character hcharacter
        simp [hlegal.characters character hcharacter]

/-! ### The listing -/

/-- The files below the file count, in order. -/
def listing (store : Store) : List RamfsFile := (List.range store.fileCount).map store.files

/-- The position of a name in a listing. -/
def position (name : List UInt8) (files : List RamfsFile) : Option ℕ :=
  files.findIdx? fun file ↦ file.name = name

/-- Replaces the file of that name in place or appends a new one. -/
def writeListing (file : RamfsFile) (files : List RamfsFile) : List RamfsFile :=
  match position file.name files with
  | some index => files.set index file
  | none => files ++ [file]

/-- Deletes the file of that name. -/
def removeListing (name : List UInt8) (files : List RamfsFile) : List RamfsFile :=
  match position name files with
  | some index => files.eraseIdx index
  | none => files

@[simp]
theorem length_listing (store : Store) : (listing store).length = store.fileCount := by
  simp [listing]

variable {index : ℕ}

theorem getElem_listing (store : Store) (hindex : index < (listing store).length) :
    (listing store)[index] = store.files index := by
  simp [listing]

theorem findFile_eq (store : Store) (name : List UInt8) :
    findFile store name = position (CString.text name) (listing store) := by
  have hmatch : ∀ index, CString.stringEquals name (store.files index).name = true ↔
      (store.files index).name = CString.text name := by
    intro index
    rw [CString.stringEquals_iff, (store.files index).name_text, eq_comm]
  cases hposition : position (CString.text name) (listing store) with
  | none =>
    rw [position, List.findIdx?_eq_none_iff] at hposition
    rw [findFile, List.find?_eq_none]
    intro index hindex
    rw [hmatch]
    simpa using hposition (store.files index) (List.mem_map_of_mem hindex)
  | some index =>
    rw [position, List.findIdx?_eq_some_iff_getElem] at hposition
    obtain ⟨hindex, hfound, hfirst⟩ := hposition
    rw [length_listing] at hindex
    rw [findFile, List.find?_range_eq_some]
    refine ⟨?_, List.mem_range.mpr hindex, ?_⟩
    · rw [hmatch]
      simpa [getElem_listing] using hfound
    · intro earlier hearlier
      have hother := hfirst earlier hearlier
      rw [Bool.not_eq_true', ← Bool.not_eq_true, hmatch]
      simpa [getElem_listing] using hother

theorem RamfsFile.copy_self (file : RamfsFile) : RamfsFile.copy file.name file.contents = file := by
  ext1
  · change CString.copyString file.name ramfsNameMax = file.name
    rw [CString.copyString_of_lt (by rw [file.name_text]; exact file.name_length), file.name_text]
  · change CString.copyString file.contents ramfsContentMax = file.contents
    rw [CString.copyString_of_lt (by rw [file.contents_text]; exact file.contents_length),
      file.contents_text]

variable {name : List UInt8}

/-- A copied slot depends on the texts of its sources only. -/
theorem RamfsFile.copy_congr {name' contents contents' : List UInt8}
    (hname : CString.text name = CString.text name')
    (hcontents : CString.text contents = CString.text contents') :
    RamfsFile.copy name contents = RamfsFile.copy name' contents' := by
  have hnames : CString.copyString name ramfsNameMax = CString.copyString name' ramfsNameMax := by
    rw [CString.copyString_eq, CString.copyString_eq, hname]
  have hcopies : CString.copyString contents ramfsContentMax =
      CString.copyString contents' ramfsContentMax := by
    rw [CString.copyString_eq, CString.copyString_eq, hcontents]
  exact RamfsFile.ext hnames hcopies

theorem RamfsFile.copy_name (hname : LegalName (CString.text name)) (contents : List UInt8) :
    (RamfsFile.copy name contents).name = CString.text name :=
  CString.copyString_of_lt hname.short

theorem position_eq_some_iff {files : List RamfsFile} :
    position name files = some index ↔ ∃ h : index < files.length, files[index].name = name ∧
      ∀ earlier (hearlier : earlier < index), files[earlier].name ≠ name := by
  simp [position, List.findIdx?_eq_some_iff_getElem]

theorem position_eq_none_iff {files : List RamfsFile} :
    position name files = none ↔ ∀ file ∈ files, file.name ≠ name := by
  simp [position, List.findIdx?_eq_none_iff]

theorem listing_update (store : Store) (index : ℕ) (file : RamfsFile) :
    listing { store with files := Function.update store.files index file } =
      (listing store).set index file := by
  apply List.ext_getElem
  · simp
  · intro position hposition _
    simp only [List.getElem_set, getElem_listing, Function.update_apply, eq_comm]

theorem listing_addFile {store : Store} (hroom : store.fileCount ≠ ramfsMaxFiles)
    (name contents : List UInt8) :
    listing (addFile store name contents) = listing store ++ [RamfsFile.copy name contents] := by
  simp only [addFile, if_neg hroom, listing, List.range_succ, List.map_append, List.map_singleton,
    Function.update_self]
  congr 1
  refine List.map_congr_left fun index hindex ↦ ?_
  exact Function.update_of_ne (List.mem_range.mp hindex).ne _ _

/-- Every moved slot takes the value of the next one. -/
theorem moveFiles_apply (remaining first : ℕ) (files : ℕ → RamfsFile) (index : ℕ) :
    moveFiles remaining (first + 1) files index =
      if first ≤ index ∧ index < first + remaining then files (index + 1) else files index := by
  induction remaining generalizing first files with
  | zero => rw [moveFiles, if_neg (by omega)]
  | succ remaining ih =>
    rw [moveFiles, ih, RamfsFile.copy_self, Nat.add_sub_cancel]
    by_cases hfirst : index = first
    · subst hfirst
      rw [if_neg (by omega), if_pos (by omega), Function.update_self]
    · rw [Function.update_of_ne hfirst]
      by_cases hmoved : first + 1 ≤ index ∧ index < first + 1 + remaining
      · rw [if_pos hmoved, if_pos (by omega), Function.update_of_ne (by omega)]
      · rw [if_neg hmoved, if_neg (by omega)]

theorem listing_moveFiles (store : Store) (hindex : index < store.fileCount) :
    listing { files := moveFiles (store.fileCount - (index + 1)) (index + 1) store.files
              fileCount := store.fileCount - 1 } = (listing store).eraseIdx index := by
  apply List.ext_getElem
  · rw [List.length_eraseIdx_of_lt (by simpa using hindex)]
    simp
  · intro position hposition _
    simp only [length_listing] at hposition
    simp only [getElem_listing, List.getElem_eraseIdx, moveFiles_apply]
    by_cases hbefore : position < index
    · rw [dif_pos hbefore, if_neg (by omega)]
    · rw [dif_neg hbefore, if_pos (by omega)]

/-! ### What the operations do to the listing -/

/-- There is a file of that name or a free slot. -/
def HasRoom (name : List UInt8) (files : List RamfsFile) : Prop :=
  position name files ≠ none ∨ files.length ≠ ramfsMaxFiles
  deriving Decidable

theorem ramfsFileContents_eq (store : Store) (hname : LegalName (CString.text name)) :
    ramfsFileContents store (some name) =
      ((listing store).find? fun file ↦ file.name = CString.text name).map RamfsFile.contents := by
  have hvalid : validName (some name) = true := (validName_iff _).mpr ⟨name, rfl, hname⟩
  rw [ramfsFileContents, if_neg (by simp [hvalid]), Option.getD_some, findFile_eq]
  cases hposition : position (CString.text name) (listing store) with
  | none =>
    have hnone : ((listing store).find? fun file ↦ file.name = CString.text name) = none := by
      simpa using position_eq_none_iff.mp hposition
    rw [hnone]
    rfl
  | some index =>
    obtain ⟨hindex, hfound, hfirst⟩ := position_eq_some_iff.mp hposition
    have hsome : ((listing store).find? fun file ↦ file.name = CString.text name) =
        some (listing store)[index] := by
      rw [List.find?_eq_some_iff_getElem]
      exact ⟨by simpa using hfound, index, hindex, rfl, by simpa using hfirst⟩
    rw [hsome, Option.map_some, getElem_listing]

theorem ramfsFileContents_eq_none_iff (store : Store) (hname : LegalName (CString.text name)) :
    ramfsFileContents store (some name) = none ↔
      position (CString.text name) (listing store) = none := by
  rw [ramfsFileContents_eq store hname, Option.map_eq_none_iff, List.find?_eq_none,
    position_eq_none_iff]
  simp

/-- The preflight accepts a legal name, contents that fit, and a store with room for the file. -/
theorem ramfsCanWriteFile_eq_some_iff (store : Store) (name contents : Pointer) (length : ℕ) :
    ramfsCanWriteFile store name contents = some length ↔
      ∃ nameBytes contentBytes, name = some nameBytes ∧ contents = some contentBytes ∧
        LegalName (CString.text nameBytes) ∧
        (CString.text contentBytes).length < ramfsContentMax ∧
        HasRoom (CString.text nameBytes) (listing store) ∧
        length = (CString.text contentBytes).length := by
  simp only [ramfsCanWriteFile, Option.ite_none_left_eq_some, Option.ite_none_right_eq_some,
    not_or, not_not, validName_iff, Option.some.injEq, not_le]
  constructor
  · rintro ⟨⟨⟨nameBytes, rfl, hlegal⟩, hcontents⟩, hshort, hroom, rfl⟩
    obtain ⟨contentBytes, rfl⟩ := Option.ne_none_iff_exists'.mp hcontents
    have hlength : stringLength (some contentBytes) ramfsContentMax =
        (CString.text contentBytes).length := CString.length_text_of_boundedLength_lt hshort
    rw [hlength] at hshort ⊢
    rw [Option.getD_some, findFile_eq] at hroom
    refine ⟨nameBytes, contentBytes, rfl, rfl, hlegal, hshort, ?_, rfl⟩
    rw [HasRoom, length_listing, ← Option.isSome_iff_ne_none]
    exact hroom
  · rintro ⟨nameBytes, contentBytes, rfl, rfl, hlegal, hshort, hroom, rfl⟩
    have hlength : stringLength (some contentBytes) ramfsContentMax =
        (CString.text contentBytes).length := by
      rw [stringLength, CString.boundedLength_eq, min_eq_right hshort.le]
    rw [HasRoom, length_listing, ← Option.isSome_iff_ne_none] at hroom
    rw [hlength, Option.getD_some, findFile_eq]
    exact ⟨⟨⟨nameBytes, rfl, hlegal⟩, Option.some_ne_none _⟩, hshort, hroom, rfl⟩

/-- A write that passes the preflight puts the file into the listing. -/
theorem ramfsWriteFile_spec (store : Store) {contents : List UInt8}
    (hlegal : LegalName (CString.text name))
    (hshort : (CString.text contents).length < ramfsContentMax)
    (hroom : HasRoom (CString.text name) (listing store)) :
    ∃ after, ramfsWriteFile store (some name) (some contents) = (true, after) ∧
      listing after = writeListing (RamfsFile.copy name contents) (listing store) := by
  have hcan := (ramfsCanWriteFile_eq_some_iff store (some name) (some contents) _).mpr
    ⟨name, contents, rfl, rfl, hlegal, hshort, hroom, rfl⟩
  have hname := RamfsFile.copy_name hlegal contents
  rw [ramfsWriteFile, hcan, writeListing, hname]
  simp only [Option.isNone_some, Bool.false_eq_true, if_false, Option.getD_some, findFile_eq]
  cases hposition : position (CString.text name) (listing store) with
  | none =>
    have hcount : store.fileCount ≠ ramfsMaxFiles := by
      simpa [HasRoom, hposition] using hroom
    exact ⟨_, rfl, listing_addFile hcount name contents⟩
  | some index =>
    obtain ⟨hindex, hfound, -⟩ := position_eq_some_iff.mp hposition
    rw [getElem_listing] at hfound
    refine ⟨_, rfl, ?_⟩
    rw [listing_update]
    congr 1
    exact RamfsFile.ext (hfound.trans hname.symm) rfl

theorem ramfsWriteFile_refused {store : Store} {name contents : Pointer}
    (hcan : ramfsCanWriteFile store name contents = none) :
    ramfsWriteFile store name contents = (false, store) := by
  rw [ramfsWriteFile, hcan]
  rfl

/-- A remove of a legal name deletes its file, or fails when there is none. -/
theorem ramfsRemoveFile_spec (store : Store) (hlegal : LegalName (CString.text name)) :
    ∃ after, ramfsRemoveFile store (some name) =
        ((position (CString.text name) (listing store)).isSome, after) ∧
      listing after = removeListing (CString.text name) (listing store) := by
  have hvalid : validName (some name) = true := (validName_iff _).mpr ⟨name, rfl, hlegal⟩
  rw [ramfsRemoveFile, if_neg (by simp [hvalid]), Option.getD_some, findFile_eq, removeListing]
  cases hposition : position (CString.text name) (listing store) with
  | none => exact ⟨store, rfl, rfl⟩
  | some index =>
    obtain ⟨hindex, -, -⟩ := position_eq_some_iff.mp hposition
    rw [length_listing] at hindex
    exact ⟨_, rfl, listing_moveFiles store hindex⟩

/-- The three files every boot starts with. -/
def defaultListing : List RamfsFile :=
  [RamfsFile.copy (CString.ascii "README") (CString.ascii "EfesOS RAM filesystem\n"),
    RamfsFile.copy (CString.ascii "MOTD") (CString.ascii "Build, learn, and drink responsibly.\n"),
    RamfsFile.copy (CString.ascii "EFES") (CString.ascii "EfesOS RAM filesystem entry.\n")]

theorem listing_ramfsInit (store : Store) : listing (ramfsInit store) = defaultListing := by
  simp [ramfsInit, addFile, listing, defaultListing, List.range_succ]

/-! ### Distinct names -/

/-- No two files have the same name. -/
def DistinctNames (files : List RamfsFile) : Prop := (files.map RamfsFile.name).Nodup

/-- The file a write leaves under its name, and the others as they were. -/
theorem mem_writeListing {files : List RamfsFile} (hdistinct : DistinctNames files)
    {file written : RamfsFile} (hmem : file ∈ writeListing written files) :
    file = written ∨ file ∈ files ∧ file.name ≠ written.name := by
  rw [writeListing] at hmem
  cases hposition : position written.name files with
  | none =>
    rw [hposition] at hmem
    rcases List.mem_append.mp hmem with hold | hnew
    · exact Or.inr ⟨hold, position_eq_none_iff.mp hposition file hold⟩
    · exact Or.inl (List.mem_singleton.mp hnew)
  | some index =>
    rw [hposition] at hmem
    obtain ⟨hindex, hname, -⟩ := position_eq_some_iff.mp hposition
    obtain ⟨other, hother, rfl⟩ := List.getElem_of_mem hmem
    rw [List.length_set] at hother
    by_cases hsame : index = other
    · exact Or.inl (by rw [List.getElem_set, if_pos hsame])
    · rw [List.getElem_set, if_neg hsame]
      refine Or.inr ⟨List.getElem_mem hother, fun heq ↦ hsame ?_⟩
      have hequal := List.inj_on_of_nodup_map hdistinct (List.getElem_mem hindex)
        (List.getElem_mem hother) (hname.trans heq.symm)
      exact (List.Nodup.of_map _ hdistinct).getElem_inj_iff.mp hequal

theorem DistinctNames.writeListing {files : List RamfsFile} (hdistinct : DistinctNames files)
    (written : RamfsFile) : DistinctNames (writeListing written files) := by
  rw [DistinctNames, Ramfs.writeListing]
  cases hposition : position written.name files with
  | none =>
    have hfresh := position_eq_none_iff.mp hposition
    simp only [List.map_append, List.map_singleton]
    refine List.Nodup.append hdistinct (List.nodup_singleton _) ?_
    simpa using hfresh
  | some index =>
    obtain ⟨hindex, hname, -⟩ := position_eq_some_iff.mp hposition
    have hnames : (files.set index written).map RamfsFile.name = files.map RamfsFile.name := by
      have hbound : index < (files.map RamfsFile.name).length := by simpa using hindex
      rw [List.map_set, ← hname, ← List.getElem_map RamfsFile.name (h := hbound),
        List.set_getElem_self]
    simp only [hnames]
    exact hdistinct

theorem removeListing_sublist (name : List UInt8) (files : List RamfsFile) :
    List.Sublist (removeListing name files) files := by
  rw [removeListing]
  cases position name files with
  | none => exact List.Sublist.refl _
  | some index => exact List.eraseIdx_sublist files index

theorem distinctNames_default : DistinctNames defaultListing := by
  unfold DistinctNames
  decide

/-! ### Journal entries -/

/-- What `ramfs_apply_journal_entry` checks of an entry before it looks at the store. -/
structure Applicable (entry : JournalEntry) : Prop where
  nameLength_pos : 0 < entry.nameLength
  nameLength_lt : entry.nameLength < ramfsNameMax
  contentLength_lt : entry.contentLength < ramfsContentMax
  terminated : entry.name.byteAt entry.nameLength = 0
  legal : LegalName (CString.text (entryName entry))
  operation : entry.operation = journalOperationRemove ∧ entry.contentLength = 0 ∨
    entry.operation = journalOperationWrite ∧ ∀ byte ∈ entryContents entry, byte ≠ 0

/-- The file an entry writes. -/
def entryFile (entry : JournalEntry) : RamfsFile :=
  RamfsFile.copy (entryName entry) (entryContents entry)

open Classical in
/-- The listing after a journal entry, `none` when it is refused. -/
noncomputable def applyListing (entry : JournalEntry) (files : List RamfsFile) :
    Option (List RamfsFile) :=
  if ¬Applicable entry then none
  else if entry.operation = journalOperationRemove then
    some (removeListing (CString.text (entryName entry)) files)
  else if HasRoom (CString.text (entryName entry)) files then
    some (writeListing (entryFile entry) files)
  else none

variable {entry : JournalEntry}

theorem length_entryContents_lt (happlicable : Applicable entry) :
    (CString.text (entryContents entry)).length < ramfsContentMax := by
  have hcut : (CString.text (entryContents entry)).length ≤ (entryContents entry).length :=
    (List.takeWhile_prefix _).length_le
  have htake : (entryContents entry).length ≤ entry.contentLength := List.length_take_le _ _
  exact lt_of_le_of_lt (hcut.trans htake) happlicable.contentLength_lt

theorem applyListing_eq_none (hnot : ¬Applicable entry) (files : List RamfsFile) :
    applyListing entry files = none := by
  rw [applyListing, if_pos hnot]

theorem applyListing_remove (happlicable : Applicable entry)
    (hremove : entry.operation = journalOperationRemove) (files : List RamfsFile) :
    applyListing entry files = some (removeListing (CString.text (entryName entry)) files) := by
  rw [applyListing, if_neg (not_not.mpr happlicable), if_pos hremove]

theorem applyListing_write (happlicable : Applicable entry)
    (hwrite : entry.operation = journalOperationWrite) (files : List RamfsFile) :
    applyListing entry files = if HasRoom (CString.text (entryName entry)) files then
      some (writeListing (entryFile entry) files) else none := by
  have hother : entry.operation ≠ journalOperationRemove := by
    rw [hwrite]
    decide
  rw [applyListing, if_neg (not_not.mpr happlicable), if_neg hother]

/-- An entry is applicable if it passes the checks that come before the operation is looked at, and
its operation is. -/
theorem applicable_iff : Applicable entry ↔
    ¬(entry.nameLength = 0 ∨ entry.nameLength ≥ ramfsNameMax ∨
      entry.contentLength ≥ ramfsContentMax ∨ entry.name.byteAt entry.nameLength ≠ 0 ∨
      ¬validName (some (entryName entry))) ∧
    (entry.operation = journalOperationRemove ∧ entry.contentLength = 0 ∨
      entry.operation = journalOperationWrite ∧ ∀ byte ∈ entryContents entry, byte ≠ 0) := by
  simp only [not_or, not_le, not_not, ge_iff_le, validName_iff, Option.some.injEq, exists_eq_left',
    ← Nat.pos_iff_ne_zero, and_assoc]
  exact ⟨fun h ↦ ⟨h.1, h.2, h.3, h.4, h.5, h.6⟩, fun h ↦ ⟨h.1, h.2.1, h.2.2.1, h.2.2.2.1,
    h.2.2.2.2.1, h.2.2.2.2.2⟩⟩

/-- The tests of `ramfs_apply_journal_entry` around what comes of them. -/
def dispatch {β : Type} (entry : JournalEntry) (refused removed written : β) : β :=
  if entry.nameLength = 0 ∨ entry.nameLength ≥ ramfsNameMax ∨
      entry.contentLength ≥ ramfsContentMax ∨ entry.name.byteAt entry.nameLength ≠ 0 ∨
      ¬validName (some (entryName entry)) then refused
  else if entry.operation = journalOperationRemove then
    if entry.contentLength ≠ 0 then refused else removed
  else if entry.operation ≠ journalOperationWrite then refused
  else if (entryContents entry).any (· = 0) then refused
  else written

section Dispatch

variable {β : Type} (refused removed written : β)

/-- An entry that passes the tests is a write or a remove. -/
theorem dispatch_of_applicable (happlicable : Applicable entry) :
    dispatch entry refused removed written =
      if entry.operation = journalOperationWrite then written else removed := by
  rw [dispatch, if_neg (applicable_iff.mp happlicable).1]
  rcases happlicable.operation with ⟨hremove, hempty⟩ | ⟨hwrite, hbytes⟩
  · have hother : entry.operation ≠ journalOperationWrite := by
      rw [hremove]
      decide
    rw [if_pos hremove, if_neg (not_not.mpr hempty), if_neg hother]
  · have hother : entry.operation ≠ journalOperationRemove := by
      rw [hwrite]
      decide
    rw [if_neg hother, if_neg (not_not.mpr hwrite), if_pos hwrite, if_neg]
    rw [List.any_eq_true]
    rintro ⟨byte, hbyte, hzero⟩
    exact hbytes byte hbyte (of_decide_eq_true hzero)

theorem dispatch_of_not_applicable (hnot : ¬Applicable entry) :
    dispatch entry refused removed written = refused := by
  rw [dispatch]
  split_ifs with hhead hremove hcontent hwrite hzero
  · rfl
  · rfl
  · exact absurd (applicable_iff.mpr ⟨hhead, Or.inl ⟨hremove, not_not.mp hcontent⟩⟩) hnot
  · rfl
  · rfl
  · refine absurd (applicable_iff.mpr ⟨hhead, Or.inr ⟨not_not.mp hwrite, ?_⟩⟩) hnot
    intro byte hbyte hnull
    exact hzero (List.any_eq_true.mpr ⟨byte, hbyte, by simpa using hnull⟩)

end Dispatch

theorem ramfsApplyJournalEntry_eq (entry : JournalEntry) (store : Store) :
    ramfsApplyJournalEntry entry store = dispatch entry (false, store)
      (if ramfsFileContents store (some (entryName entry)) = none then (true, store)
      else ramfsRemoveFile store (some (entryName entry)))
      (ramfsWriteFile store (some (entryName entry)) (some (entryContents entry))) := rfl

theorem ramfsApplyJournalEntry_remove (happlicable : Applicable entry)
    (hremove : entry.operation = journalOperationRemove) (store : Store) :
    ∃ after, ramfsApplyJournalEntry entry store = (true, after) ∧
      listing after = removeListing (CString.text (entryName entry)) (listing store) := by
  have hother : entry.operation ≠ journalOperationWrite := by
    rw [hremove]
    decide
  obtain ⟨after, hafter, hlisting⟩ := ramfsRemoveFile_spec store happlicable.legal
  rw [ramfsApplyJournalEntry_eq, dispatch_of_applicable _ _ _ happlicable, if_neg hother]
  have habsent := ramfsFileContents_eq_none_iff store happlicable.legal
  cases hposition : position (CString.text (entryName entry)) (listing store) with
  | none =>
    refine ⟨store, if_pos (habsent.mpr hposition), ?_⟩
    rw [removeListing, hposition]
  | some index =>
    have hpresent : ramfsFileContents store (some (entryName entry)) ≠ none := by
      rw [Ne, habsent, hposition]
      exact Option.some_ne_none index
    rw [hposition] at hafter
    exact ⟨after, (if_neg hpresent).trans hafter, hlisting⟩

theorem ramfsApplyJournalEntry_write (happlicable : Applicable entry)
    (hwrite : entry.operation = journalOperationWrite) (store : Store) :
    ramfsApplyJournalEntry entry store =
      ramfsWriteFile store (some (entryName entry)) (some (entryContents entry)) := by
  rw [ramfsApplyJournalEntry_eq, dispatch_of_applicable _ _ _ happlicable, if_pos hwrite]

/-- A journal entry acts on the listing alone, and a refused entry leaves the store as it is. -/
theorem ramfsApplyJournalEntry_spec (entry : JournalEntry) (store : Store) :
    (∃ after, ramfsApplyJournalEntry entry store = (true, after) ∧
      applyListing entry (listing store) = some (listing after)) ∨
    (ramfsApplyJournalEntry entry store = (false, store) ∧
      applyListing entry (listing store) = none) := by
  by_cases happlicable : Applicable entry
  · rcases happlicable.operation with ⟨hremove, -⟩ | ⟨hwrite, -⟩
    · obtain ⟨after, hafter, hlisting⟩ := ramfsApplyJournalEntry_remove happlicable hremove store
      rw [applyListing_remove happlicable hremove, ← hlisting]
      exact Or.inl ⟨after, hafter, rfl⟩
    · rw [ramfsApplyJournalEntry_write happlicable hwrite, applyListing_write happlicable hwrite]
      by_cases hroom : HasRoom (CString.text (entryName entry)) (listing store)
      · obtain ⟨after, hafter, hlisting⟩ := ramfsWriteFile_spec store happlicable.legal
          (length_entryContents_lt happlicable) hroom
        rw [if_pos hroom]
        exact Or.inl ⟨after, hafter, congrArg some hlisting.symm⟩
      · refine Or.inr ⟨ramfsWriteFile_refused ?_, if_neg hroom⟩
        rw [Option.eq_none_iff_forall_ne_some]
        intro length hcan
        obtain ⟨nameBytes, contentBytes, heq, -, -, -, hfree, -⟩ :=
          (ramfsCanWriteFile_eq_some_iff _ _ _ _).mp hcan
        rw [Option.some.inj heq] at hroom
        exact hroom hfree
  · exact Or.inr ⟨dispatch_of_not_applicable _ _ _ happlicable,
      applyListing_eq_none happlicable _⟩

end EfesOS.Fs.Ramfs
