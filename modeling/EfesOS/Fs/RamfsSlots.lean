import EfesOS.Fs.Ramfs

/-!
# The bytes of the RAM filesystem

The slots of `fs/ramfs.c` as the arrays they are. `copy_string` leaves the bytes behind the
terminator it stores, so a slot keeps parts of earlier strings. What can be seen of the slots is
`Slots.store`, and on it every operation does what it does to texts (`Request.store_run`): the files
are an ordered map from names to contents after any history (`ramfs_refines_map`).
-/

set_option autoImplicit false

namespace EfesOS.Fs.Ramfs

open EfesOS.Foundation
open EfesOS.Fs.Journal (JournalEntry journalOperationWrite journalOperationRemove)

/-! ### The source functions -/

/-- `copy_string` into an array of bytes. -/
def copyString : List UInt8 → List UInt8 → List UInt8
  | [], _ => []
  | _ :: stale, [] => 0 :: stale
  | _ :: stale, byte :: source =>
    if stale ≠ [] ∧ byte ≠ 0 then byte :: copyString stale source else 0 :: stale

/-- The two arrays of a `struct ramfs_file`, each with a terminator. -/
structure Slot where
  name : List UInt8
  contents : List UInt8
  name_size : name.length = ramfsNameMax
  contents_size : contents.length = ramfsContentMax
  name_terminated : (CString.text name).length < ramfsNameMax
  contents_terminated : (CString.text contents).length < ramfsContentMax

theorem length_copyString (destination source : List UInt8) :
    (copyString destination source).length = destination.length := by
  induction destination generalizing source with
  | nil => rfl
  | cons old stale ih =>
    cases source with
    | nil => rfl
    | cons byte source =>
      rw [copyString]
      split_ifs
      · exact congrArg Nat.succ (ih source)
      · rfl

/-- The bytes that were in the array before do not show. -/
theorem text_copyString (destination source : List UInt8) :
    CString.text (copyString destination source) =
      CString.copyString source destination.length := by
  rw [CString.copyString_eq]
  induction destination generalizing source with
  | nil => simp [copyString]
  | cons old stale ih =>
    cases source with
    | nil => simp [copyString, CString.text_cons]
    | cons byte source =>
      rw [copyString]
      split_ifs with hcopied
      · obtain ⟨next, rest, rfl⟩ := List.exists_cons_of_ne_nil hcopied.1
        simp [CString.text_cons, hcopied.2, ih]
      · by_cases hbyte : byte = 0
        · simp [CString.text_cons, hbyte]
        · have hlast : stale = [] := not_not.1 fun hmore ↦ hcopied ⟨hmore, hbyte⟩
          simp [CString.text_cons, hlast]

namespace Slot

variable (slot : Slot)

def copyName (name : List UInt8) : Slot :=
  { slot with
    name := copyString slot.name name
    name_size := (length_copyString _ _).trans slot.name_size
    name_terminated := by
      rw [text_copyString, slot.name_size]
      exact CString.length_copyString_lt _ (by decide) }

def copyContents (contents : List UInt8) : Slot :=
  { slot with
    contents := copyString slot.contents contents
    contents_size := (length_copyString _ _).trans slot.contents_size
    contents_terminated := by
      rw [text_copyString, slot.contents_size]
      exact CString.length_copyString_lt _ (by decide) }

def copy (name contents : List UInt8) : Slot := (slot.copyName name).copyContents contents

/-- What can be seen of a slot. -/
def file : RamfsFile where
  name := CString.text slot.name
  contents := CString.text slot.contents
  name_text := CString.text_text _
  name_length := slot.name_terminated
  contents_text := CString.text_text _
  contents_length := slot.contents_terminated

theorem file_copyContents (contents : List UInt8) :
    (slot.copyContents contents).file = slot.file.withContents contents := by
  refine RamfsFile.ext rfl ((text_copyString slot.contents contents).trans ?_)
  rw [slot.contents_size]
  rfl

theorem file_copy (name contents : List UInt8) :
    (slot.copy name contents).file = RamfsFile.copy name contents := by
  rw [copy, file_copyContents]
  refine RamfsFile.ext ((text_copyString slot.name name).trans ?_) rfl
  rw [slot.name_size]
  rfl

end Slot

/-- The array of slots and the file count. -/
structure Slots where
  files : ℕ → Slot
  fileCount : ℕ

namespace Slots

/-- What can be seen of the slots. -/
def store (slots : Slots) : Store := ⟨Slot.file ∘ slots.files, slots.fileCount⟩

variable (slots : Slots)

def findFile (name : List UInt8) : Option ℕ :=
  (List.range slots.fileCount).find? fun index ↦
    CString.stringEquals name (slots.files index).name

def addFile (name contents : List UInt8) : Slots :=
  if slots.fileCount = ramfsMaxFiles then slots
  else
    { files := Function.update slots.files slots.fileCount
        ((slots.files slots.fileCount).copy name contents)
      fileCount := slots.fileCount + 1 }

def ramfsInit : Slots :=
  let slots := { slots with fileCount := 0 }
  let slots := slots.addFile (CString.ascii "README") (CString.ascii "EfesOS RAM filesystem\n")
  let slots := slots.addFile (CString.ascii "MOTD")
    (CString.ascii "Build, learn, and drink responsibly.\n")
  slots.addFile (CString.ascii "EFES") (CString.ascii "EfesOS RAM filesystem entry.\n")

def ramfsFileContents (name : Pointer) : Pointer :=
  if ¬validName name then none
  else (slots.findFile (name.getD [])).map fun index ↦ (slots.files index).contents

def ramfsCanWriteFile (name contents : Pointer) : Option ℕ :=
  if ¬validName name ∨ contents = none then none
  else
    let length := stringLength contents ramfsContentMax
    if length ≥ ramfsContentMax then none
    else if (slots.findFile (name.getD [])).isSome ∨ slots.fileCount ≠ ramfsMaxFiles then
      some length
    else none

def ramfsWriteFile (name contents : Pointer) : Bool × Slots :=
  if (slots.ramfsCanWriteFile name contents).isNone then (false, slots)
  else
    match slots.findFile (name.getD []) with
    | some index =>
      let slot := (slots.files index).copyContents (contents.getD [])
      (true, { slots with files := Function.update slots.files index slot })
    | none => (true, slots.addFile (name.getD []) (contents.getD []))

/-- The loop that closes the gap of a removed file: `remaining` moves from slot `move` on. -/
def moveFiles : ℕ → ℕ → (ℕ → Slot) → ℕ → Slot
  | 0, _, files => files
  | remaining + 1, move, files =>
    moveFiles remaining (move + 1) (Function.update files (move - 1)
      ((files (move - 1)).copy (files move).name (files move).contents))

def ramfsRemoveFile (name : Pointer) : Bool × Slots :=
  if ¬validName name then (false, slots)
  else
    match slots.findFile (name.getD []) with
    | none => (false, slots)
    | some index =>
      (true, { files := moveFiles (slots.fileCount - (index + 1)) (index + 1) slots.files
               fileCount := slots.fileCount - 1 })

def ramfsApplyJournalEntry : Option JournalEntry → Bool × Slots
  | none => (false, slots)
  | some entry =>
    if entry.nameLength = 0 ∨ entry.nameLength ≥ ramfsNameMax ∨
        entry.contentLength ≥ ramfsContentMax ∨ entry.name.byteAt entry.nameLength ≠ 0 ∨
        ¬validName (some (entryName entry)) then (false, slots)
    else if entry.operation = journalOperationRemove then
      if entry.contentLength ≠ 0 then (false, slots)
      else if slots.ramfsFileContents (some (entryName entry)) = none then (true, slots)
      else slots.ramfsRemoveFile (some (entryName entry))
    else if entry.operation ≠ journalOperationWrite then (false, slots)
    else if (entryContents entry).any (· = 0) then (false, slots)
    else slots.ramfsWriteFile (some (entryName entry)) (some (entryContents entry))

/-! ### What can be seen -/

theorem findFile_store (name : List UInt8) :
    Ramfs.findFile slots.store name = slots.findFile name := by
  refine congrArg (fun test ↦ (List.range slots.fileCount).find? test) (funext fun index ↦ ?_)
  rw [Bool.eq_iff_iff, CString.stringEquals_iff, CString.stringEquals_iff]
  exact Eq.congr_right (CString.text_text _)

theorem store_addFile (name contents : List UInt8) :
    (slots.addFile name contents).store = Ramfs.addFile slots.store name contents := by
  unfold addFile Ramfs.addFile
  rw [apply_ite store]
  refine if_congr Iff.rfl rfl ?_
  rw [store, Function.comp_update, Slot.file_copy]
  rfl

theorem store_ramfsInit : slots.ramfsInit.store = Ramfs.ramfsInit slots.store := by
  simp only [ramfsInit, store_addFile]
  rfl

theorem canWriteFile_store (name contents : Pointer) :
    Ramfs.ramfsCanWriteFile slots.store name contents = slots.ramfsCanWriteFile name contents := by
  unfold Ramfs.ramfsCanWriteFile ramfsCanWriteFile
  rw [findFile_store]
  rfl

theorem fileContents_store (name : Pointer) :
    Ramfs.ramfsFileContents slots.store name = (slots.ramfsFileContents name).map CString.text := by
  unfold Ramfs.ramfsFileContents ramfsFileContents
  rw [findFile_store, apply_ite (Option.map CString.text)]
  refine if_congr Iff.rfl rfl ?_
  cases slots.findFile (name.getD []) <;> rfl

theorem store_ramfsWriteFile (name contents : Pointer) :
    Prod.map id store (slots.ramfsWriteFile name contents) =
      Ramfs.ramfsWriteFile slots.store name contents := by
  unfold Ramfs.ramfsWriteFile ramfsWriteFile
  rw [canWriteFile_store, findFile_store, apply_ite (Prod.map id store)]
  refine if_congr Iff.rfl rfl ?_
  cases slots.findFile (name.getD []) with
  | none => exact congrArg (Prod.mk true) (slots.store_addFile _ _)
  | some index =>
    refine congrArg (Prod.mk true) ?_
    rw [store, Function.comp_update, Slot.file_copyContents]
    rfl

theorem file_moveFiles (remaining move : ℕ) (files : ℕ → Slot) :
    Slot.file ∘ moveFiles remaining move files =
      Ramfs.moveFiles remaining move (Slot.file ∘ files) := by
  induction remaining generalizing move files with
  | zero => rfl
  | succ remaining ih =>
    rw [moveFiles, ih, Ramfs.moveFiles, Function.comp_update, Slot.file_copy]
    congr 2
    exact RamfsFile.copy_congr (CString.text_text _).symm (CString.text_text _).symm

theorem store_ramfsRemoveFile (name : Pointer) :
    Prod.map id store (slots.ramfsRemoveFile name) = Ramfs.ramfsRemoveFile slots.store name := by
  unfold Ramfs.ramfsRemoveFile ramfsRemoveFile
  rw [findFile_store, apply_ite (Prod.map id store)]
  refine if_congr Iff.rfl rfl ?_
  cases slots.findFile (name.getD []) with
  | none => rfl
  | some index =>
    refine congrArg (Prod.mk true) ?_
    rw [store, file_moveFiles]
    rfl

end Slots

/-! ### Histories -/

inductive Request where
  | write (name contents : Pointer)
  | remove (name : Pointer)
  | apply (entry : Option JournalEntry)

def Request.run : Request → Slots → Bool × Slots
  | .write name contents, slots => slots.ramfsWriteFile name contents
  | .remove name, slots => slots.ramfsRemoveFile name
  | .apply entry, slots => slots.ramfsApplyJournalEntry entry

def runRequests (requests : List Request) (slots : Slots) : Slots :=
  requests.foldl (fun slots request ↦ (request.run slots).2) slots

/-- At most sixteen files with different legal names. -/
structure OrderedMap (files : List RamfsFile) : Prop where
  bounded : files.length ≤ ramfsMaxFiles
  distinct : DistinctNames files
  legal : ∀ file ∈ files, LegalName file.name

/-- The files are an ordered map, and every operation works on it as on one. -/
structure RefinesMap (slots : Slots) : Prop where
  map : OrderedMap (listing slots.store)
  lookup : ∀ name contents, (slots.ramfsFileContents name).map CString.text = some contents ↔
    ∃ bytes, name = some bytes ∧
      ∃ file ∈ listing slots.store, file.name = CString.text bytes ∧ file.contents = contents
  write : ∀ name contents,
    (slots.ramfsWriteFile name contents).1 = (slots.ramfsCanWriteFile name contents).isSome
  written : ∀ name contents, (slots.ramfsWriteFile name contents).1 = true →
    ∃ nameBytes contentBytes file, name = some nameBytes ∧ contents = some contentBytes ∧
      file.name = CString.text nameBytes ∧ file.contents = CString.text contentBytes ∧
      listing (slots.ramfsWriteFile name contents).2.store =
        writeListing file (listing slots.store)
  remove : ∀ name, (slots.ramfsRemoveFile name).1 = true ↔
    ∃ bytes, name = some bytes ∧ ∃ file ∈ listing slots.store, file.name = CString.text bytes
  removed : ∀ bytes, listing (slots.ramfsRemoveFile (some bytes)).2.store =
    removeListing (CString.text bytes) (listing slots.store)
  applied : ∀ entry, Applicable entry → slots.ramfsApplyJournalEntry (some entry) =
    if entry.operation = journalOperationWrite then
      slots.ramfsWriteFile (some (entryName entry)) (some (entryContents entry))
    else if slots.ramfsFileContents (some (entryName entry)) = none then (true, slots)
    else slots.ramfsRemoveFile (some (entryName entry))
  refused : ∀ entry, ¬Applicable entry → slots.ramfsApplyJournalEntry (some entry) = (false, slots)
  failed : ∀ request : Request, (request.run slots).1 = false → (request.run slots).2 = slots

variable {slots : Slots} {name contents : Pointer} {files : List RamfsFile}

/-- What a request comes to: nothing, a write or a remove. -/
theorem Request.run_cases (request : Request) (slots : Slots) :
    (request.run slots).2 = slots ∨
      (∃ name contents, request.run slots = slots.ramfsWriteFile name contents) ∨
      ∃ name, request.run slots = slots.ramfsRemoveFile name := by
  cases request with
  | write name contents => exact .inr (.inl ⟨name, contents, rfl⟩)
  | remove name => exact .inr (.inr ⟨name, rfl⟩)
  | apply entry =>
    cases entry with
    | none => exact .inl rfl
    | some entry =>
      rw [run, Slots.ramfsApplyJournalEntry]
      split_ifs
      all_goals first
        | exact .inl rfl
        | exact .inr (.inl ⟨_, _, rfl⟩)
        | exact .inr (.inr ⟨_, rfl⟩)

theorem Request.run_failed (request : Request) (hfailed : (request.run slots).1 = false) :
    (request.run slots).2 = slots := by
  rcases request.run_cases slots with hsame | ⟨name, contents, hwrite⟩ | ⟨name, hremove⟩
  · exact hsame
  · rw [hwrite, Slots.ramfsWriteFile] at hfailed ⊢
    grind
  · rw [hremove, Slots.ramfsRemoveFile] at hfailed ⊢
    grind

theorem Slots.ramfsWriteFile_written (hwritten : (slots.ramfsWriteFile name contents).1 = true) :
    ∃ nameBytes contentBytes, name = some nameBytes ∧ contents = some contentBytes ∧
      LegalName (CString.text nameBytes) ∧
      (CString.text contentBytes).length < ramfsContentMax ∧
      HasRoom (CString.text nameBytes) (listing slots.store) ∧
      listing (slots.ramfsWriteFile name contents).2.store =
        writeListing (RamfsFile.copy nameBytes contentBytes) (listing slots.store) := by
  obtain ⟨hfirst, hsecond⟩ := Prod.ext_iff.1 (slots.store_ramfsWriteFile name contents)
  rw [Prod.map_fst, id_eq] at hfirst
  rw [Prod.map_snd] at hsecond
  cases hcan : Ramfs.ramfsCanWriteFile slots.store name contents with
  | none =>
    rw [hwritten, ramfsWriteFile_refused hcan] at hfirst
    cases hfirst
  | some length =>
    obtain ⟨nameBytes, contentBytes, rfl, rfl, hlegal, hshort, hroom, -⟩ :=
      (ramfsCanWriteFile_eq_some_iff _ _ _ _).1 hcan
    obtain ⟨after, hrun, hlisting⟩ := ramfsWriteFile_spec slots.store hlegal hshort hroom
    refine ⟨nameBytes, contentBytes, rfl, rfl, hlegal, hshort, hroom, ?_⟩
    rw [hsecond, hrun, hlisting]

/-- A remove succeeds where a file of that name is, and deletes it. -/
theorem OrderedMap.ramfsRemoveFile (hmap : OrderedMap (listing slots.store)) (bytes : List UInt8) :
    ((slots.ramfsRemoveFile (some bytes)).1 = true ↔
      ∃ file ∈ listing slots.store, file.name = CString.text bytes) ∧
    listing (slots.ramfsRemoveFile (some bytes)).2.store =
      removeListing (CString.text bytes) (listing slots.store) := by
  obtain ⟨hfirst, hsecond⟩ := Prod.ext_iff.1 (slots.store_ramfsRemoveFile (some bytes))
  rw [Prod.map_fst, id_eq] at hfirst
  rw [Prod.map_snd] at hsecond
  rw [hfirst, hsecond]
  by_cases hlegal : LegalName (CString.text bytes)
  · obtain ⟨after, hrun, hlisting⟩ := ramfsRemoveFile_spec slots.store hlegal
    rw [hrun, hlisting, Option.isSome_iff_ne_none, Ne, position_eq_none_iff]
    simp
  · have hinvalid : ¬validName (some bytes) = true := fun hvalid ↦ hlegal (by
      obtain ⟨_, heq, hname⟩ := (validName_iff _).1 hvalid
      rwa [Option.some.inj heq])
    have hnone : ∀ file ∈ listing slots.store, file.name ≠ CString.text bytes :=
      fun file hfile heq ↦ hlegal (heq ▸ hmap.legal file hfile)
    rw [Ramfs.ramfsRemoveFile, if_pos hinvalid, removeListing, position_eq_none_iff.2 hnone]
    exact ⟨by simpa using hnone, rfl⟩

theorem Slots.ramfsRemoveFile_none : slots.ramfsRemoveFile none = (false, slots) := rfl

theorem OrderedMap.write (hmap : OrderedMap files) {file : RamfsFile} (hlegal : LegalName file.name)
    (hroom : HasRoom file.name files) : OrderedMap (writeListing file files) where
  bounded := by
    have hbounded := hmap.bounded
    rw [writeListing]
    cases hposition : position file.name files with
    | none =>
      have hfree := hroom.resolve_left (not_not.2 hposition)
      rw [List.length_append, List.length_singleton]
      omega
    | some index => rwa [List.length_set]
  distinct := hmap.distinct.writeListing file
  legal other hother := by
    rcases mem_writeListing hmap.distinct hother with rfl | ⟨hold, -⟩
    · exact hlegal
    · exact hmap.legal other hold

theorem OrderedMap.remove (hmap : OrderedMap files) (name : List UInt8) :
    OrderedMap (removeListing name files) where
  bounded := (removeListing_sublist name files).length_le.trans hmap.bounded
  distinct := hmap.distinct.sublist ((removeListing_sublist name files).map RamfsFile.name)
  legal file hfile := hmap.legal file ((removeListing_sublist name files).subset hfile)

theorem OrderedMap.run (hmap : OrderedMap (listing slots.store)) (request : Request) :
    OrderedMap (listing (request.run slots).2.store) := by
  cases hresult : (request.run slots).1 with
  | false => rwa [request.run_failed hresult]
  | true =>
    rcases request.run_cases slots with hsame | ⟨name, contents, hwrite⟩ | ⟨name, hremove⟩
    · rwa [hsame]
    · rw [hwrite] at hresult ⊢
      obtain ⟨nameBytes, contentBytes, -, -, hlegal, -, hroom, hlisting⟩ :=
        Slots.ramfsWriteFile_written hresult
      have hname := RamfsFile.copy_name hlegal contentBytes
      rw [hlisting]
      exact hmap.write (by rwa [hname]) (by rwa [hname])
    · rw [hremove] at hresult ⊢
      cases name with
      | none => cases hresult
      | some bytes =>
        rw [(hmap.ramfsRemoveFile bytes).2]
        exact hmap.remove _

theorem orderedMap_default : OrderedMap defaultListing := by
  have hlegal : ∀ name contents : List UInt8, validName (some name) = true →
      LegalName (RamfsFile.copy name contents).name := by
    intro name contents hvalid
    obtain ⟨_, heq, hname⟩ := (validName_iff _).1 hvalid
    rw [← Option.some.inj heq] at hname
    rwa [RamfsFile.copy_name hname]
  refine ⟨by decide, distinctNames_default, ?_⟩
  simp only [defaultListing, List.forall_mem_cons, List.not_mem_nil, IsEmpty.forall_iff,
    implies_true, and_true]
  exact ⟨hlegal _ _ (by decide), hlegal _ _ (by decide), hlegal _ _ (by decide)⟩

theorem orderedMap_runRequests (requests : List Request)
    (hmap : OrderedMap (listing slots.store)) :
    OrderedMap (listing (runRequests requests slots).store) := by
  induction requests generalizing slots with
  | nil => exact hmap
  | cons request requests ih => exact ih (hmap.run request)

/-- A lookup finds the contents that stand by the name. -/
theorem OrderedMap.lookup (hmap : OrderedMap (listing slots.store)) (name : Pointer)
    (contents : List UInt8) :
    (slots.ramfsFileContents name).map CString.text = some contents ↔
      ∃ bytes, name = some bytes ∧
        ∃ file ∈ listing slots.store, file.name = CString.text bytes ∧
          file.contents = contents := by
  rw [← Slots.fileContents_store]
  cases name with
  | none => simp [Ramfs.ramfsFileContents, validName, stringLength]
  | some bytes =>
    by_cases hlegal : LegalName (CString.text bytes)
    · rw [ramfsFileContents_eq slots.store hlegal, Option.map_eq_some_iff]
      simp only [Option.some.injEq, exists_eq_left']
      constructor
      · rintro ⟨file, hfound, rfl⟩
        exact ⟨file, List.mem_of_find?_eq_some hfound,
          by simpa using List.find?_some hfound, rfl⟩
      · rintro ⟨file, hfile, hname, rfl⟩
        refine ⟨file, ?_, rfl⟩
        cases hfound : (listing slots.store).find? fun file ↦ file.name = CString.text bytes with
        | none => exact absurd hname (by simpa using List.find?_eq_none.1 hfound file hfile)
        | some other =>
          have hother : other.name = CString.text bytes := by simpa using List.find?_some hfound
          rw [List.inj_on_of_nodup_map hmap.distinct (List.mem_of_find?_eq_some hfound) hfile
            (hother.trans hname.symm)]
    · rw [Ramfs.ramfsFileContents, if_pos fun hvalid ↦ hlegal ?_]
      · refine ⟨by simp, ?_⟩
        rintro ⟨_, heq, file, hfile, hname, -⟩
        rw [← Option.some.inj heq] at hname
        exact absurd (hname ▸ hmap.legal file hfile) hlegal
      · obtain ⟨_, heq, hname⟩ := (validName_iff _).1 hvalid
        rwa [Option.some.inj heq]

/-- After any history, whatever was in the arrays before it, the files are an ordered map. -/
theorem ramfs_refines_map (requests : List Request) (slots : Slots) :
    RefinesMap (runRequests requests slots.ramfsInit) := by
  have hstart : OrderedMap (listing slots.ramfsInit.store) := by
    rw [Slots.store_ramfsInit, listing_ramfsInit]
    exact orderedMap_default
  have hmap := orderedMap_runRequests requests hstart
  generalize runRequests requests slots.ramfsInit = after at hmap
  refine ⟨hmap, hmap.lookup, fun name contents ↦ ?_, fun name contents hwritten ↦ ?_, fun name ↦ ?_,
    fun bytes ↦ (hmap.ramfsRemoveFile bytes).2,
    fun entry ↦ dispatch_of_applicable _ _ _,
    fun entry ↦ dispatch_of_not_applicable _ _ _, fun request ↦ request.run_failed⟩
  · rw [Slots.ramfsWriteFile]
    cases after.ramfsCanWriteFile name contents with
    | none => rfl
    | some length => cases after.findFile (name.getD []) <;> rfl
  · obtain ⟨nameBytes, contentBytes, hname, hcontents, hlegal, hshort, -, hlisting⟩ :=
      Slots.ramfsWriteFile_written hwritten
    exact ⟨nameBytes, contentBytes, _, hname, hcontents, RamfsFile.copy_name hlegal contentBytes,
      CString.copyString_of_lt hshort, hlisting⟩
  · cases name with
    | none => simp [Slots.ramfsRemoveFile_none]
    | some bytes =>
      rw [(hmap.ramfsRemoveFile bytes).1]
      simp

end EfesOS.Fs.Ramfs
