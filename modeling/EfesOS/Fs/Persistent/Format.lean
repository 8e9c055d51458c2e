import EfesOS.Fs.Persistent.Durability

/-!
# Formatting

What `persistent_ramfs_format` leaves when it succeeds, and what its check of the live files is
worth. `persistentRamfsFormat_success` says that a successful format left a journal without records
and did not touch the store.

The check for a pristine store compares the number and the names of the files. It cannot see a
default file that was overwritten, so the live files equal the ones of the next boot exactly for the
histories whose last write to each default file, if there was one, restored its contents
(`format_keeps_files_iff`). `format_strands_overwritten_readme` is a history that does not.
-/

set_option autoImplicit false

namespace EfesOS.Fs.Persistent

open EfesOS.Foundation EfesOS.Drivers EfesOS.Fs.Journal EfesOS.Fs.Ramfs EfesOS.Fs.Vfs

/-! ### A successful format -/

/-- The system after a successful format: an empty journal, an open window, and the old store. -/
structure Formatted (before after : Machine) : Prop extends Durable after 64 [] where
  store : after.store = before.store
  persistent : after.persistent = ⟨true, tailStart after.ata, 1, 0⟩
  window : WindowOpen after.ata
  faults : FaultFree before.ata.drive → FaultFree after.ata.drive

section Format

variable {machine after : Machine} {allocated : Bool}

/-- A superblock in front of empty sectors is a journal without records. -/
theorem holds_superblock {disk : ℕ → Sector} {start : ℕ} {superblock : Sector}
    (hfits : regionFits start persistentJournalRegionSectors = true)
    (hencode : journalSuperblockEncode 64 = some superblock)
    (hempty : ∀ offset < persistentJournalRegionSectors,
      disk (start + offset) = Buffer.zeroed 512) :
    HoldsJournal (Function.update disk start superblock) start persistentJournalRegionSectors 64
      [] := by
  refine .of_empty (by decide) (by decide) hfits ?_ (by decide) fun index hindex ↦ ?_
  · rw [Function.update_self]
    exact journalSuperblockDecode_encode hencode
  · have hoffset : 1 + index < persistentJournalRegionSectors := by
      change 1 + index < 65
      omega
    rw [Function.update_of_ne (by omega), Nat.add_assoc]
    exact hempty (1 + index) hoffset

section

variable (hready : RegionReady machine)
include hready

theorem RegionReady.fits :
    regionFits (tailStart machine.ata) persistentJournalRegionSectors = true := by
  have hbound : machine.ata.sectors ≤ 281474976710656 := hready.wellFormed.lba48 hready.present
  refine decide_eq_true ⟨by decide, ?_⟩
  change machine.ata.sectors - 65 ≤ 18446744073709551615 - 64
  omega

/-- The write of the superblock through the window just opened, and what can be read then. -/
theorem RegionReady.write_superblock {opened : Ata}
    (hopened : openWindow (tailStart machine.ata) persistentJournalRegionSectors machine.ata =
      opened) (superblock : Sector) :
    ataCallbacks.write (tailStart machine.ata) superblock opened =
      ((machine.ata.drive.writeFault machine.ata.drive.writes).succeeds,
        afterWrite (tailStart machine.ata) superblock opened) ∧
    ataModel.readable (afterWrite (tailStart machine.ata) superblock opened)
      (tailStart machine.ata) := by
  subst hopened
  have hwell : (openWindow (tailStart machine.ata) persistentJournalRegionSectors
      machine.ata).WellFormed := ⟨hready.wellFormed.lba48, hready.wellFormed.lba28⟩
  have hadmits := @windowAdmits_of_open
    (openWindow (tailStart machine.ata) persistentJournalRegionSectors machine.ata)
    ⟨rfl, rfl, rfl⟩ hready.present hready.large 0 (by decide)
  obtain ⟨-, -, hstart⟩ := hready.readable 0 (by decide)
  exact ⟨ataCallbacks_write hwell hadmits superblock, ⟨hwell.lba48, hwell.lba28⟩, hready.present,
    hstart⟩

/-- The last steps of a format: the window is opened and the superblock written. -/
theorem format_publishes {superblock : Sector}
    (hencode : journalSuperblockEncode 64 = some superblock)
    (hempty : ∀ offset < persistentJournalRegionSectors,
      machine.ata.drive.disk (tailStart machine.ata + offset) = Buffer.zeroed 512)
    {ata opened : Ata}
    (hopened : openWindow (tailStart machine.ata) persistentJournalRegionSectors machine.ata =
      opened)
    (hwrite : ataCallbacks.write (tailStart machine.ata) superblock opened = (true, ata)) :
    ataModel.readable ata (tailStart machine.ata) ∧
      Formatted machine { machine with
        ata := ataModel.next ata
        persistent := ⟨true, tailStart machine.ata, 1, 0⟩ } := by
  obtain ⟨hwritten, hreadable⟩ := hready.write_superblock hopened superblock
  rw [hwritten] at hwrite
  obtain ⟨hsucceeds, rfl⟩ := Prod.mk.inj hwrite
  have hdrive : opened.drive = machine.ata.drive := by rw [← hopened]; rfl
  have hdisk := disk_afterWrite (tailStart machine.ata) superblock opened
  rw [hdrive, if_pos (WriteFault.stores_of_succeeds hsucceeds)] at hdisk
  subst hopened
  refine ⟨hreadable, ?_⟩
  exact
    { wellFormed := ⟨hready.wellFormed.lba48, hready.wellFormed.lba28⟩
      present := hready.present
      large := hready.large
      available := hready.available
      holds := by
        change HoldsJournal (afterWrite _ _ _).drive.disk (tailStart machine.ata) _ _ _
        rw [hdisk]
        exact holds_superblock hready.fits hencode hempty
      store := rfl
      persistent := rfl
      window := ⟨rfl, rfl, rfl⟩
      faults := fun hfree ↦ ⟨hfree.read, hfree.write⟩ }

/-- Only an empty region is formatted. -/
theorem formatRegion_success
    (hstart : machine.persistent.regionStart = tailStart machine.ata)
    (hformat : formatRegion allocated machine = (true, after)) : Formatted machine after := by
  obtain ⟨reads, hstate, hbuffer⟩ :=
    ataReadSectors_cases (tailStart machine.ata) persistentJournalRegionSectors machine.ata
  rw [formatRegion, hstart] at hformat
  generalize ataReadSectors (tailStart machine.ata) persistentJournalRegionSectors machine.ata =
    answer at hformat hstate hbuffer
  by_cases hallocated : allocated = true
  · rw [if_neg (not_not.mpr hallocated)] at hformat
    rcases answer with ⟨_ | buffer, ata⟩
    · cases hformat
    obtain rfl : ata = ataModel.advance reads machine.ata := hstate
    simp only at hformat
    by_cases hempty : buffer.all sectorIsEmpty = true
    · rw [if_neg (not_not.mpr hempty)] at hformat
      cases hencode : journalSuperblockEncode (persistentJournalRegionSectors - 1) with
      | none =>
        rw [hencode] at hformat
        cases hformat
      | some superblock =>
        have hread := hready.advance reads
        have henable := hread.enable
        simp only [tailStart_advance] at henable
        simp only [hencode, henable] at hformat
        have hzero : ∀ offset < persistentJournalRegionSectors,
            (ataModel.advance reads machine.ata).drive.disk
              (tailStart (ataModel.advance reads machine.ata) + offset) = Buffer.zeroed 512 := by
          intro offset hoffset
          rw [hbuffer buffer rfl, List.all_map, List.all_eq_true] at hempty
          rw [tailStart_advance, (ataModel_advance_fields reads machine.ata).2.2]
          refine (sectorIsEmpty_iff _).mp (hempty _ ?_)
          rw [List.mem_range'_1]
          omega
        rcases hwrite : ataCallbacks.write (tailStart machine.ata) superblock
          (openWindow (tailStart machine.ata) persistentJournalRegionSectors
            (ataModel.advance reads machine.ata)) with ⟨_ | _, written⟩
        · rw [hwrite] at hformat
          cases hformat
        · simp only [hwrite] at hformat
          obtain ⟨hreadable, hformatted⟩ := format_publishes hread hencode hzero rfl
            (by rw [tailStart_advance]; exact hwrite)
          rw [tailStart_advance] at hreadable hformatted
          rw [ataModel.read_eq _ _ hreadable] at hformat
          cases hfails : ataModel.fails written with
          | true =>
            rw [hfails] at hformat
            cases hformat
          | false =>
            simp only [hfails, Bool.false_eq_true, if_false] at hformat
            split_ifs at hformat
            · cases hformat
            · obtain rfl := (Prod.mk.inj hformat).2
              exact
                { toDurable := hformatted.toDurable
                  store := rfl
                  persistent := hformatted.persistent
                  window := hformatted.window
                  faults := fun hfree ↦ hformatted.faults (hfree.advance reads) }
    · rw [if_pos hempty] at hformat
      cases hformat
  · rw [if_pos hallocated] at hformat
    cases hformat

end

/-- What a successful format checked and what it left. -/
theorem persistentRamfsFormat_success (hwell : machine.ata.WellFormed)
    (hformat : persistentRamfsFormat allocated machine = (true, after)) :
    machine.persistent.enabled = false ∧ ramfsIsPristine machine.store = true ∧
      Formatted machine after := by
  rw [persistentRamfsFormat] at hformat
  by_cases hguard : machine.persistent.enabled ∨ ¬ramfsIsPristine machine.store ∨
      ¬regionExists machine.ata
  · rw [if_pos hguard] at hformat
    cases hformat
  rw [if_neg hguard] at hformat
  by_cases havailable : regionAvailable (locateRegion machine) = true
  · rw [if_neg (not_not.mpr havailable)] at hformat
    simp only [not_or, Bool.not_eq_true, Bool.not_eq_false] at hguard
    obtain ⟨hdisabled, hpristine, hexists⟩ := hguard
    obtain ⟨hpresent, hlarge⟩ := of_decide_eq_true hexists
    have hready : RegionReady (locateRegion machine) := ⟨hwell, hpresent, hlarge, havailable⟩
    have hformatted := formatRegion_success hready rfl hformat
    exact ⟨hdisabled, hpristine, hformatted.toDurable, hformatted.store, hformatted.persistent,
      hformatted.window, hformatted.faults⟩
  · rw [if_pos havailable] at hformat
    cases hformat

/-- On a drive without faults an empty region is formatted. -/
theorem persistentRamfsFormat_of_empty (hready : RegionReady machine)
    (hfree : FaultFree machine.ata.drive) (hdisabled : machine.persistent.enabled = false)
    (hpristine : ramfsIsPristine machine.store = true)
    (hempty : ∀ offset < persistentJournalRegionSectors,
      machine.ata.drive.disk (tailStart machine.ata + offset) = Buffer.zeroed 512) :
    (persistentRamfsFormat true machine).1 = true := by
  have hexists : regionExists machine.ata = true := decide_eq_true ⟨hready.present, hready.large⟩
  have havailable : regionAvailable (locateRegion machine) = true := hready.available
  have hvalid : validRequest machine.ata (tailStart machine.ata)
      persistentJournalRegionSectors = true := by
    have hlarge := hready.large
    refine decide_eq_true ⟨hready.present, by decide, by decide, ?_, ?_⟩
    · exact (hready.readable 0 (by decide)).2.2
    · unfold tailStart
      omega
  have hsome : (journalSuperblockEncode (persistentJournalRegionSectors - 1)).isSome :=
    journalSuperblockEncode_isSome (by decide) (by decide)
  obtain ⟨superblock, hencode⟩ := Option.isSome_iff_exists.mp hsome
  have hread := ataReadSectors_of_valid hready.wellFormed hvalid (hfree.read _ _)
  have hzero : ((List.range' (tailStart machine.ata) persistentJournalRegionSectors).map
      machine.ata.drive.disk).all sectorIsEmpty = true := by
    simp only [List.all_map, List.all_eq_true, List.mem_range'_1, Function.comp_apply]
    intro lba hlba
    obtain ⟨offset, rfl⟩ := Nat.exists_eq_add_of_le hlba.1
    rw [hempty offset (by omega)]
    exact (sectorIsEmpty_iff _).mpr rfl
  have hadvanced := hready.advance 1
  have henable := hadvanced.enable
  obtain ⟨hwrite, hreadable⟩ := hadvanced.write_superblock rfl superblock
  simp only [tailStart_advance, (hfree.advance 1).write] at henable hwrite hreadable
  have hdisk : ataModel.stored (afterWrite (tailStart machine.ata) superblock
      (openWindow (tailStart machine.ata) persistentJournalRegionSectors
        (ataModel.advance 1 machine.ata))) (tailStart machine.ata) = superblock := by
    have hstores : ((openWindow (tailStart machine.ata) persistentJournalRegionSectors
        (ataModel.advance 1 machine.ata)).drive.writeFault (openWindow (tailStart machine.ata)
          persistentJournalRegionSectors (ataModel.advance 1 machine.ata)).drive.writes).stores =
        true := congrArg WriteFault.stores ((hfree.advance 1).write _)
    change (afterWrite _ _ _).drive.disk _ = _
    rw [disk_afterWrite, if_pos hstores, Function.update_self]
  have hreadBack := ReadModel.read_of_clean hreadable
    (fails_of_faultFree ⟨(hfree.advance 1).read, (hfree.advance 1).write⟩)
  rw [hdisk] at hreadBack
  rw [persistentRamfsFormat, if_neg (by simp [hdisabled, hpristine, hexists]),
    if_neg (not_not.mpr havailable), formatRegion]
  simp only [locateRegion, not_true_eq_false, if_false, hread, hzero, hencode, henable, hwrite,
    WriteFault.succeeds, hreadBack, journalSuperblockDecode_encode hencode, Option.isNone_some,
    Bool.false_eq_true]

end Format

/-! ### Volatile histories -/

/-- A call on the RAM filesystem alone. -/
def volatileCall : Call → Store → Bool × Store
  | .write name contents, store => ramfsWriteFile store name contents
  | .remove name, store => ramfsRemoveFile store name

def volatileCalls (calls : List Call) (store : Store) : Store :=
  calls.foldl (fun store call ↦ (volatileCall call store).2) store

/-- The contents a call writes to a file of that name, `none` when it writes none or fails. -/
def writtenTo (name : List UInt8) (store : Store) : Call → Option (List UInt8)
  | .write file contents =>
    if (ramfsWriteFile store file contents).1 ∧ CString.text (file.getD []) = name then
      some (CString.text (contents.getD []))
    else none
  | .remove _ => none

/-- The contents of the last successful write to a file of that name. -/
def lastWrite (name : List UInt8) : List Call → Store → Option (List UInt8)
  | [], _ => none
  | call :: calls, store =>
    (lastWrite name calls (volatileCall call store).2).or (writtenTo name store call)

/-- What a volatile call does: a successful write puts its file into the listing, and everything
else leaves part of the listing. -/
theorem volatileCall_cases (call : Call) (store : Store) :
    (∃ name contents, call = .write (some name) (some contents) ∧
      (volatileCall call store).1 = true ∧ LegalName (CString.text name) ∧
      (CString.text contents).length < ramfsContentMax ∧
      listing (volatileCall call store).2 =
        writeListing (RamfsFile.copy name contents) (listing store)) ∨
    ((∀ name, writtenTo name store call = none) ∧
      List.Sublist (listing (volatileCall call store).2) (listing store)) := by
  cases call with
  | write name contents =>
    cases hcan : ramfsCanWriteFile store name contents with
    | none =>
      refine Or.inr ⟨fun other ↦ ?_, ?_⟩
      · simp [writtenTo, ramfsWriteFile_refused hcan]
      · rw [volatileCall, ramfsWriteFile_refused hcan]
    | some length =>
      obtain ⟨nameBytes, contentBytes, rfl, rfl, hlegal, hshort, hroom, -⟩ :=
        (ramfsCanWriteFile_eq_some_iff _ _ _ _).mp hcan
      obtain ⟨after, hwrite, hlisting⟩ := ramfsWriteFile_spec store hlegal hshort hroom
      refine Or.inl ⟨nameBytes, contentBytes, rfl, ?_, hlegal, hshort, ?_⟩
      · rw [volatileCall, hwrite]
      · rw [volatileCall, hwrite, hlisting]
  | remove name =>
    refine Or.inr ⟨fun _ ↦ rfl, ?_⟩
    rw [volatileCall]
    by_cases hvalid : validName name = true
    · obtain ⟨nameBytes, rfl, hlegal⟩ := (Ramfs.validName_iff _).mp hvalid
      obtain ⟨after, hremove, hlisting⟩ := ramfsRemoveFile_spec store hlegal
      rw [hremove, hlisting]
      exact removeListing_sublist _ _
    · rw [ramfsRemoveFile, if_pos hvalid]

section

variable {store : Store} (hdistinct : DistinctNames (listing store))
include hdistinct

theorem distinctNames_volatileCall (call : Call) :
    DistinctNames (listing (volatileCall call store).2) := by
  rcases volatileCall_cases call store with ⟨name, contents, -, -, -, -, hlisting⟩ | ⟨-, hsublist⟩
  · rw [hlisting]
    exact hdistinct.writeListing _
  · exact hdistinct.sublist (hsublist.map RamfsFile.name)

/-- After a call, a file holds what the call wrote to it or is as it was. -/
theorem volatileCall_contents {call : Call} {file : RamfsFile}
    (hmem : file ∈ listing (volatileCall call store).2) :
    writtenTo file.name store call = some file.contents ∨
      writtenTo file.name store call = none ∧ file ∈ listing store := by
  rcases volatileCall_cases call store with
    ⟨name, contents, rfl, hsucceeds, hlegal, hshort, hlisting⟩ | ⟨hnone, hsublist⟩
  · have hname := RamfsFile.copy_name hlegal contents
    rw [hlisting] at hmem
    rw [volatileCall] at hsucceeds
    simp only [writtenTo, hsucceeds, true_and, Option.getD_some]
    rcases mem_writeListing hdistinct hmem with rfl | ⟨hold, hother⟩
    · refine Or.inl ?_
      rw [if_pos hname.symm]
      exact congrArg some (CString.copyString_of_lt hshort).symm
    · rw [hname] at hother
      exact Or.inr ⟨if_neg hother.symm, hold⟩
  · exact Or.inr ⟨hnone _, hsublist.subset hmem⟩

/-- After a history, a file holds what was last written to it or is as it was. -/
theorem volatileCalls_contents {calls : List Call} {file : RamfsFile}
    (hmem : file ∈ listing (volatileCalls calls store)) :
    lastWrite file.name calls store = some file.contents ∨
      lastWrite file.name calls store = none ∧ file ∈ listing store := by
  induction calls generalizing store with
  | nil => exact Or.inr ⟨rfl, hmem⟩
  | cons call calls ih =>
    simp only [lastWrite]
    rcases ih (distinctNames_volatileCall hdistinct call) hmem with hlast | ⟨hnone, hmem⟩
    · exact Or.inl (by rw [hlast, Option.some_or])
    · rw [hnone, Option.none_or]
      exact volatileCall_contents hdistinct hmem

end

/-- The check for a pristine store sees the names of the files and nothing else. -/
theorem ramfsIsPristine_iff (store : Store) :
    ramfsIsPristine store = true ↔
      (listing store).map RamfsFile.name = defaultListing.map RamfsFile.name := by
  have hdefault : defaultListing.map RamfsFile.name =
      [CString.text (CString.ascii "README"), CString.text (CString.ascii "MOTD"),
        CString.text (CString.ascii "EFES")] := by decide
  simp only [ramfsIsPristine, decide_eq_true_eq, CString.stringEquals_iff, RamfsFile.name_text,
    hdefault]
  constructor
  · rintro ⟨hcount, hreadme, hmotd, hefes⟩
    simp [listing, hcount, List.range_succ, hreadme, hmotd, hefes]
  · intro hnames
    have hcount : store.fileCount = 3 := by
      simpa using congrArg List.length hnames
    simpa [listing, hcount, List.range_succ] using hnames

/-- The last write to each default file, if there was one, wrote its default contents. -/
def RestoresDefaults (calls : List Call) (store : Store) : Prop :=
  ∀ file ∈ defaultListing, ∀ contents, lastWrite file.name calls store = some contents →
    contents = file.contents

theorem listing_eq_default_iff {calls : List Call} {store : Store}
    (hpristine : ramfsIsPristine (volatileCalls calls (ramfsInit store)) = true) :
    listing (volatileCalls calls (ramfsInit store)) = defaultListing ↔
      RestoresDefaults calls (ramfsInit store) := by
  have hdistinct : DistinctNames (listing (ramfsInit store)) := by
    exact distinctNames_default
  have hcontents := fun file ↦ @volatileCalls_contents _ hdistinct calls file
  have hnames := (ramfsIsPristine_iff _).mp hpristine
  generalize listing (volatileCalls calls (ramfsInit store)) = live at hcontents hnames ⊢
  constructor
  · rintro rfl file hfile contents hlast
    rcases hcontents file hfile with hsome | ⟨hnone, -⟩
    · exact Option.some.inj (hlast.symm.trans hsome)
    · rw [hnone] at hlast
      cases hlast
  · intro hrestores
    have hlength : live.length = defaultListing.length := by
      simpa using congrArg List.length hnames
    refine List.ext_getElem hlength fun index hlive hdefault ↦ ?_
    have hname : live[index].name = defaultListing[index].name := by
      have hboth := List.getElem_of_eq hnames (by simpa using hlive)
      simpa only [List.getElem_map] using hboth
    have hdefaultMem : defaultListing[index] ∈ defaultListing := List.getElem_mem hdefault
    rcases hcontents live[index] (List.getElem_mem hlive) with hlast | ⟨-, hmem⟩
    · rw [hname] at hlast
      exact RamfsFile.ext hname (hrestores _ hdefaultMem _ hlast)
    · exact List.inj_on_of_nodup_map distinctNames_default hmem hdefaultMem hname

/-- After a volatile history and a successful format, a reboot yields the default files, and the
live files equal them exactly when the history restored the contents of the default files. -/
theorem format_keeps_files_iff (identify : Option (ℕ → UInt16)) (machine : Machine)
    (calls : List Call) (allocated : Bool) (after : Machine)
    (hformat : persistentRamfsFormat allocated { machine with
      ata := ataInit identify machine.ata
      store := volatileCalls calls (ramfsInit machine.store) } = (true, after)) :
    (reboot (repaired after)).1 = true ∧
      listing (reboot (repaired after)).2.store = defaultListing ∧
      (listing after.store = listing (reboot (repaired after)).2.store ↔
        RestoresDefaults calls (ramfsInit machine.store)) := by
  obtain ⟨-, hpristine, hformatted⟩ :=
    persistentRamfsFormat_success (ataInit_cases identify machine.ata).1 hformat
  obtain ⟨booted, hboot, hlisting, -⟩ :=
    reboot_of_durable hformatted.toDurable.repaired (faultFree_repaired after) rfl
  rw [hboot, hlisting, hformatted.store]
  exact ⟨rfl, rfl, listing_eq_default_iff hpristine⟩

/-! ### Two histories on a small drive -/

/-- A drive of empty sectors without faults. -/
def blankDrive : Drive :=
  ⟨fun _ ↦ Buffer.zeroed 512, fun _ _ ↦ false, fun _ ↦ .clear, 0, 0, []⟩

/-- The system with that drive, of 100 sectors, after a volatile history. -/
def unformattedMachine (calls : List Call) : Machine :=
  { smallMachine blankDrive with store := volatileCalls calls (ramfsInit emptyStore) }

theorem format_unformattedMachine {calls : List Call}
    (hpristine : ramfsIsPristine (volatileCalls calls (ramfsInit emptyStore)) = true) :
    ∃ after, persistentRamfsFormat true (unformattedMachine calls) = (true, after) ∧
      Formatted (unformattedMachine calls) after := by
  have hready := regionReady_smallMachine blankDrive
  have hready' : RegionReady (unformattedMachine calls) :=
    ⟨hready.wellFormed, hready.present, hready.large, hready.available⟩
  have hsucceeds := persistentRamfsFormat_of_empty hready' ⟨fun _ _ ↦ rfl, fun _ ↦ rfl⟩ rfl
    hpristine fun _ _ ↦ rfl
  have hformat : persistentRamfsFormat true (unformattedMachine calls) =
      (true, (persistentRamfsFormat true (unformattedMachine calls)).2) := Prod.ext hsucceeds rfl
  exact ⟨_, hformat, (persistentRamfsFormat_success hready'.wellFormed hformat).2.2⟩

/-- An overwritten README passes for pristine, and the format succeeds. -/
theorem format_strands_overwritten_readme :
    let machine := unformattedMachine
      [.write (some (CString.ascii "README")) (some (CString.ascii "notes"))]
    (persistentRamfsFormat true machine).1 = true ∧
      listing (persistentRamfsFormat true machine).2.store ≠
        listing (reboot (repaired (persistentRamfsFormat true machine).2)).2.store := by
  intro machine
  obtain ⟨after, hformat, hformatted⟩ := @format_unformattedMachine
    [.write (some (CString.ascii "README")) (some (CString.ascii "notes"))] (by decide)
  obtain ⟨booted, hboot, hlisting, -⟩ :=
    reboot_of_durable hformatted.toDurable.repaired (faultFree_repaired after) rfl
  rw [hformat, hboot, hlisting, hformatted.store]
  exact ⟨rfl, by decide⟩

/-- A history that removes all files and writes them back is seen as pristine, and is. -/
theorem format_keeps_rewritten_files :
    let calls : List Call := [.remove (some (CString.ascii "MOTD")),
      .remove (some (CString.ascii "EFES")),
      .write (some (CString.ascii "MOTD"))
        (some (CString.ascii "Build, learn, and drink responsibly.\n")),
      .write (some (CString.ascii "EFES")) (some (CString.ascii "EfesOS RAM filesystem entry.\n"))]
    ∃ after, persistentRamfsFormat true (unformattedMachine calls) = (true, after) ∧
      (listing after.store = listing (reboot (repaired after)).2.store ↔
        RestoresDefaults calls (ramfsInit emptyStore)) := by
  intro calls
  obtain ⟨after, hformat, -⟩ := @format_unformattedMachine calls (by decide)
  exact ⟨after, hformat, (format_keeps_files_iff (some smallIdentify)
    (smallMachine blankDrive) calls true after hformat).2.2⟩

end EfesOS.Fs.Persistent
