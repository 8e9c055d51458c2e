import EfesOS.Fs.Persistent.Format

/-!
# Boots with the self-test

The boot sequence of `kernel_main` around the RAM filesystem: `ramfs_init`, `persistent_ramfs_init`
and `ramfs_self_test`, a panic if one of the last two fails. The self-test writes a file `TEST` and
removes it again, so it needs a free slot and destroys a file of that name (`ramfsSelfTest_iff`).

`Reachable` are the systems that boots, formats and successful persistent calls lead to, with the
files persisted so far, as long as the self-test had its slot and its name to itself at every boot.
`kernel_boot_keeps_files_iff` says that the next boot keeps the persisted files exactly when it has
them too. A full store makes the next boot panic (`kernel_boot_panics_on_full_store`), and a
persisted file `TEST` is lost (`kernel_boot_loses_test_file`).
-/

set_option autoImplicit false

namespace EfesOS.Fs.Persistent

open EfesOS.Foundation EfesOS.Drivers EfesOS.Fs.Journal EfesOS.Fs.Ramfs EfesOS.Fs.Vfs

/-! ### The self-test -/

/-- The name of the file that the self-test writes and removes. -/
abbrev testName : List UInt8 := CString.ascii "TEST"

/-- There is a free slot and no file with the name that the self-test uses. -/
def SelfTestFits (files : List RamfsFile) : Prop :=
  files.length ≠ ramfsMaxFiles ∧ position testName files = none

theorem legal_of_validName {bytes : List UInt8} (hvalid : Ramfs.validName (some bytes) = true) :
    LegalName (CString.text bytes) := by
  obtain ⟨_, hsome, hlegal⟩ := (Ramfs.validName_iff _).mp hvalid
  cases hsome
  exact hlegal

theorem legal_testName : LegalName (CString.text testName) := legal_of_validName (by decide)

theorem ramfsWriteFile_invalid {name : Pointer} (hinvalid : validName name = false)
    (store : Store) (contents : Pointer) : ramfsWriteFile store name contents = (false, store) := by
  apply ramfsWriteFile_refused
  rw [ramfsCanWriteFile, if_pos (Or.inl (by simp [hinvalid]))]

theorem find_writeListing (file : RamfsFile) (files : List RamfsFile) :
    (writeListing file files).find? (fun other ↦ other.name = file.name) = some file := by
  rw [writeListing]
  cases hposition : position file.name files with
  | none =>
    have hfresh := position_eq_none_iff.mp hposition
    have hnone : files.find? (fun other ↦ other.name = file.name) = none := by
      simpa using hfresh
    simp [List.find?_append, hnone]
  | some index =>
    obtain ⟨hindex, -, hfirst⟩ := position_eq_some_iff.mp hposition
    rw [List.find?_eq_some_iff_getElem]
    refine ⟨by simp, index, by simpa using hindex, by simp, fun earlier hearlier ↦ ?_⟩
    rw [List.getElem_set_ne (by omega)]
    simpa using hfirst earlier hearlier

theorem position_writeListing (file : RamfsFile) (files : List RamfsFile) :
    (position file.name (writeListing file files)).isSome := by
  have hfound := find_writeListing file files
  rw [Option.isSome_iff_ne_none, ne_eq, position_eq_none_iff]
  intro hnone
  exact hnone file (List.mem_of_find?_eq_some hfound) rfl

variable {files : List RamfsFile}

theorem length_writeListing {file : RamfsFile} {index : ℕ}
    (hposition : position file.name files = some index) :
    (writeListing file files).length = files.length := by
  rw [writeListing, hposition]
  exact List.length_set

theorem length_removeListing {name : List UInt8} (hposition : (position name files).isSome) :
    (removeListing name files).length + 1 = files.length := by
  obtain ⟨index, hindex⟩ := Option.isSome_iff_exists.mp hposition
  obtain ⟨hbound, -⟩ := position_eq_some_iff.mp hindex
  rw [removeListing, hindex]
  simp only [List.length_eraseIdx, if_pos hbound]
  omega

/-- A new file that is removed again leaves the listing as it was. -/
theorem removeListing_writeListing {file : RamfsFile}
    (hposition : position file.name files = none) :
    removeListing file.name (writeListing file files) = files := by
  have hfresh := position_eq_none_iff.mp hposition
  have hlast : position file.name (files ++ [file]) = some files.length := by
    rw [position_eq_some_iff]
    refine ⟨by simp, by simp, fun earlier hearlier ↦ ?_⟩
    rw [List.getElem_append_left hearlier]
    exact hfresh _ (List.getElem_mem hearlier)
  rw [writeListing, hposition]
  simp only [removeListing, hlast]
  rw [List.eraseIdx_append_of_length_le le_rfl]
  simp

/-- With room for its file, the self-test writes it and removes it again. -/
theorem ramfsSelfTest_of_room {store : Store} (hroom : HasRoom testName (listing store)) :
    ∃ file after, file.name = testName ∧
      listing after = removeListing testName (writeListing file (listing store)) ∧
      ramfsSelfTest store = ((ramfsFileContents after (some testName)).isNone, after) := by
  have hshort : (CString.text (CString.ascii "safe write\n")).length < ramfsContentMax := by decide
  have hbad : validName (some (CString.ascii "bad/name")) = false := by decide
  have hlong : validName (some (CString.ascii "TOO_LONG_NAME_THAT_EXCEEDS_THE_LIMIT")) = false := by
    decide
  obtain ⟨written, hwrite, hlisting⟩ := ramfsWriteFile_spec store legal_testName hshort hroom
  generalize hfile : RamfsFile.copy testName (CString.ascii "safe write\n") = file at hlisting
  have hname : file.name = testName := hfile ▸ RamfsFile.copy_name legal_testName _
  have hcontents : ramfsFileContents written (some testName) =
      some (CString.ascii "safe write\n") := by
    have hfound := find_writeListing file (listing store)
    rw [hname] at hfound
    rw [ramfsFileContents_eq written legal_testName, hlisting]
    exact (congrArg (Option.map RamfsFile.contents) hfound).trans (by rw [← hfile]; rfl)
  obtain ⟨after, hremove, hafter⟩ := ramfsRemoveFile_spec written legal_testName
  have hthere : (position (CString.text testName) (listing written)).isSome = true := by
    have hposition := position_writeListing file (listing store)
    rw [hname] at hposition
    rw [hlisting]
    exact hposition
  rw [hthere] at hremove
  rw [hlisting] at hafter
  refine ⟨file, after, hname, hafter, ?_⟩
  have hunknown : ramfsFileContents written
      (some (CString.ascii "TOO_LONG_NAME_THAT_EXCEEDS_THE_LIMIT")) = none := by
    rw [ramfsFileContents, if_pos (by simp [hlong])]
  have hequal : CString.stringEquals (CString.ascii "safe write\n")
      (CString.ascii "safe write\n") = true := by decide
  simp only [ramfsSelfTest, hwrite, hcontents, hequal, not_true_eq_false, if_false,
    ramfsWriteFile_invalid hbad, ramfsWriteFile_invalid hlong, hunknown, ne_eq, hremove]

/-- Without room for its file, the self-test fails at once. -/
theorem ramfsSelfTest_of_full {store : Store} (hfull : (listing store).length = ramfsMaxFiles)
    (hfresh : position testName (listing store) = none) :
    ramfsSelfTest store = (false, store) := by
  have hrefused : ramfsWriteFile store (some testName) (some (CString.ascii "safe write\n")) =
      (false, store) := by
    apply ramfsWriteFile_refused
    rw [Option.eq_none_iff_forall_ne_some]
    intro length hcan
    obtain ⟨name, contents, hname, -, -, -, hroom, -⟩ :=
      (ramfsCanWriteFile_eq_some_iff _ _ _ _).mp hcan
    obtain rfl := Option.some.inj hname
    exact hroom.elim (fun h ↦ h hfresh) fun h ↦ h hfull
  simp only [ramfsSelfTest, hrefused]

/-- The self-test succeeds and leaves the files as they are exactly when there is a free slot and no
file of the name it uses. -/
theorem ramfsSelfTest_iff (store : Store) :
    (ramfsSelfTest store).1 = true ∧ listing (ramfsSelfTest store).2 = listing store ↔
      SelfTestFits (listing store) := by
  by_cases hroom : HasRoom testName (listing store)
  · obtain ⟨file, after, hname, hlisting, htest⟩ := ramfsSelfTest_of_room hroom
    rw [htest, hlisting]
    cases hposition : position testName (listing store) with
    | none =>
      have hfits : SelfTestFits (listing store) :=
        ⟨hroom.resolve_left fun h ↦ h hposition, hposition⟩
      have hsame : removeListing testName (writeListing file (listing store)) = listing store := by
        rw [← hname] at hposition ⊢
        exact removeListing_writeListing hposition
      refine ⟨fun _ ↦ hfits, fun _ ↦ ⟨?_, hsame⟩⟩
      rw [Option.isNone_iff_eq_none, ramfsFileContents_eq_none_iff after legal_testName, hlisting,
        hsame]
      exact hposition
    | some index =>
      refine ⟨fun ⟨_, hsame⟩ ↦ ?_, fun hfits ↦ ?_⟩
      · have hshorter := length_removeListing (position_writeListing file (listing store))
        rw [hname, hsame, length_writeListing (hname ▸ hposition)] at hshorter
        omega
      · rw [hfits.2] at hposition
        cases hposition
  · rw [HasRoom, not_or, not_not, not_not] at hroom
    rw [ramfsSelfTest_of_full hroom.2 hroom.1]
    exact ⟨by simp, fun hfits ↦ absurd hroom.2 hfits.1⟩

/-! ### The boot sequence -/

/-- The part of `kernel_main` around the RAM filesystem; `none` is a panic. -/
def kernelBoot (machine : Machine) : Option Machine :=
  match reboot machine with
  | (false, _) => none
  | (true, machine) =>
    match ramfsSelfTest machine.store with
    | (false, _) => none
    | (true, store) => some { machine with store := store }

/-- A boot that replays keeps the replayed files exactly when the self-test fits. -/
theorem kernelBoot_iff {machine booted : Machine} (hboot : reboot machine = (true, booted)) :
    (∃ after, kernelBoot machine = some after ∧ listing after.store = listing booted.store) ↔
      SelfTestFits (listing booted.store) := by
  rw [← ramfsSelfTest_iff, kernelBoot, hboot]
  simp only
  rcases ramfsSelfTest booted.store with ⟨_ | _, store⟩
  · simp
  · simp

/-- The systems that boots, formats and successful calls lead to, whether the kernel is running, and
the files persisted so far. Every boot so far left the self-test its slot and its name. -/
inductive Reachable : Bool → Machine → List RamfsFile → Prop
  | blank (identify : Option (ℕ → UInt16)) (machine : Machine)
      (hfree : FaultFree machine.ata.drive)
      (hblank : journalSuperblockDecode
        (machine.ata.drive.disk (tailStart (ataInit identify machine.ata))) = none) :
      Reachable false { machine with ata := ataInit identify machine.ata } defaultListing
  | boot {running : Bool} {machine after : Machine} {files : List RamfsFile}
      (hreach : Reachable running machine files) (hfits : SelfTestFits files)
      (hboot : kernelBoot machine = some after) : Reachable true after files
  | format {machine after : Machine} {files : List RamfsFile} {allocated : Bool}
      (hreach : Reachable true machine files)
      (hformat : persistentRamfsFormat allocated machine = (true, after)) :
      Reachable true after files
  | call {machine after : Machine} {files : List RamfsFile} {call : Call}
      (hreach : Reachable true machine files) (hcall : runCall call machine = (some true, after)) :
      Reachable true after (callListing call files)

/-- The drive is fault-free and holds no journal yet, and the files of a running kernel are the
default ones. -/
structure Blank (running : Bool) (machine : Machine) (files : List RamfsFile) : Prop where
  wellFormed : machine.ata.WellFormed
  free : FaultFree machine.ata.drive
  superblock : journalSuperblockDecode (machine.ata.drive.disk (tailStart machine.ata)) = none
  files_eq : files = defaultListing
  disabled : running = true → machine.persistent.enabled = false
  live : running = true → listing machine.store = defaultListing

/-- The drive is fault-free and the live files are the ones its journal replays to; the records
carry the sequences from one on. -/
structure Journaled (machine : Machine) (files : List RamfsFile) (dataSectors : ℕ)
    (records : List JournalEntry) : Prop extends Synced machine dataSectors records where
  free : FaultFree machine.ata.drive
  files_eq : files = listing machine.store
  sequences : lastSequence 0 records = records.length

section Boot

variable {running : Bool} {machine after : Machine} {files : List RamfsFile} {dataSectors : ℕ}
  {records : List JournalEntry}

/-- The boot of a system without a journal leaves one with the default files. -/
theorem Blank.reboot (hblank : Blank running machine files) :
    ∃ booted, reboot machine = (true, booted) ∧ Blank true booted files := by
  obtain ⟨reads, start, hboot⟩ := @persistentRamfsInit_of_blank
    { machine with store := ramfsInit machine.store } hblank.wellFormed hblank.superblock
  refine ⟨_, hboot, ?_⟩
  rw [ataModel_advance]
  exact
    { wellFormed := ⟨hblank.wellFormed.lba48, hblank.wellFormed.lba28⟩
      free := ⟨hblank.free.read, hblank.free.write⟩
      superblock := hblank.superblock
      files_eq := hblank.files_eq
      disabled := fun _ ↦ rfl
      live := fun _ ↦ listing_ramfsInit machine.store }

/-- The boot of a system with a journal restores its files. -/
theorem Journaled.reboot (hjournaled : Journaled machine files dataSectors records) :
    ∃ booted, reboot machine = (true, booted) ∧ Journaled booted files dataSectors records := by
  have hlength := hjournaled.holds.length_le
  have hregion : dataSectors + 1 ≤ 65 := hjournaled.holds.dataSectors_lt
  obtain ⟨booted, hboot, hlisting, hsynced⟩ :=
    reboot_of_durable hjournaled.toDurable hjournaled.free hjournaled.replay
  have hlast : lastSequence 0 records ≠ 0xFFFFFFFF := by
    rw [hjournaled.sequences]
    omega
  exact ⟨booted, hboot, (hsynced hlast).1, (hsynced hlast).2,
    hjournaled.files_eq.trans hlisting.symm,
    hjournaled.sequences⟩

/-- A store with the same listing will do. -/
theorem Blank.withStore (hblank : Blank true machine files) {store : Store}
    (hlisting : listing store = listing machine.store) :
    Blank true { machine with store := store } files :=
  ⟨hblank.wellFormed, hblank.free, hblank.superblock, hblank.files_eq, hblank.disabled,
    fun h ↦ hlisting.trans (hblank.live h)⟩

theorem Journaled.withStore (hjournaled : Journaled machine files dataSectors records)
    {store : Store} (hlisting : listing store = listing machine.store) :
    Journaled { machine with store := store } files dataSectors records :=
  { toDurable := hjournaled.toDurable.congr rfl rfl
    enabled := hjournaled.enabled
    regionStart := hjournaled.regionStart
    window := hjournaled.window
    replay := hjournaled.replay.trans (congrArg some hlisting.symm)
    nextSequence := hjournaled.nextSequence
    free := hjournaled.free
    files_eq := hjournaled.files_eq.trans hlisting.symm
    sequences := hjournaled.sequences }

/-- A format of the default files makes a journal without records. -/
theorem Blank.format (hblank : Blank true machine files) {allocated : Bool}
    (hformat : persistentRamfsFormat allocated machine = (true, after)) :
    Journaled after files 64 [] := by
  obtain ⟨-, -, hformatted⟩ := persistentRamfsFormat_success hblank.wellFormed hformat
  have hlisting : listing after.store = defaultListing := by
    rw [hformatted.store]
    exact hblank.live rfl
  exact
    { toDurable := hformatted.toDurable
      enabled := by rw [hformatted.persistent]
      regionStart := by rw [hformatted.persistent]
      window := hformatted.window
      replay := congrArg some hlisting.symm
      nextSequence := by
        rw [hformatted.persistent]
        rfl
      free := hformatted.faults hblank.free
      files_eq := hblank.files_eq.trans hlisting.symm
      sequences := rfl }

/-- A successful call persists what it asked for. -/
theorem Journaled.call (hjournaled : Journaled machine files dataSectors records) {call : Call}
    (hcall : runCall call machine = (some true, after)) :
    ∃ more, Journaled after (callListing call files) dataSectors more := by
  rcases runCall_step hjournaled.toSynced hjournaled.free call with
    ⟨-, reads, hrefused⟩ | ⟨next, request, hrequest, hnext, hlisting, hsynced, hfree⟩
  · rw [hrefused] at hcall
    cases hcall
  · obtain rfl := (Prod.mk.inj (hcall.symm.trans hnext)).2
    obtain ⟨hsubmits, -, -⟩ := runCall_of_some hrequest
    refine ⟨_, hsynced, hfree, ?_, ?_⟩
    · rw [hlisting, hjournaled.files_eq]
    · rw [lastSequence_append, List.length_append, List.length_singleton]
      change request.sequence = _
      rw [hsubmits.sequence, hjournaled.newer hsubmits.nonzero, hjournaled.sequences]

/-- The system after a boot whose self-test fits differs from the booted one in a store with the
same listing. -/
theorem kernelBoot_fits {booted : Machine} (hboot : reboot machine = (true, booted))
    (hfits : SelfTestFits (listing booted.store)) (hafter : kernelBoot machine = some after) :
    ∃ store, after = { booted with store := store } ∧ listing store = listing booted.store := by
  obtain ⟨hsucceeds, hlisting⟩ := (ramfsSelfTest_iff booted.store).mpr hfits
  rw [kernelBoot, hboot] at hafter
  simp only at hafter
  generalize ramfsSelfTest booted.store = outcome at hsucceeds hlisting hafter
  rcases outcome with ⟨_ | _, store⟩
  · cases hsucceeds
  · exact ⟨store, (Option.some.inj hafter).symm, hlisting⟩

/-- What holds along every run. -/
theorem Reachable.cases (hreach : Reachable running machine files) :
    Blank running machine files ∨
      ∃ dataSectors records, Journaled machine files dataSectors records := by
  induction hreach with
  | blank identify machine hfree hblank =>
    obtain ⟨hwell, -, hdrive, -⟩ := ataInit_cases identify machine.ata
    refine Or.inl ⟨hwell, hdrive ▸ hfree, ?_, rfl, by simp, by simp⟩
    simp only [hdrive]
    exact hblank
  | boot _ hfits hboot ih =>
    rcases ih with hblank | ⟨dataSectors, records, hjournaled⟩
    · obtain ⟨booted, hreboot, hbooted⟩ := hblank.reboot
      rw [hbooted.files_eq, ← hbooted.live rfl] at hfits
      obtain ⟨store, rfl, hlisting⟩ := kernelBoot_fits hreboot hfits hboot
      exact Or.inl (hbooted.withStore hlisting)
    · obtain ⟨booted, hreboot, hbooted⟩ := hjournaled.reboot
      rw [hbooted.files_eq] at hfits
      obtain ⟨store, rfl, hlisting⟩ := kernelBoot_fits hreboot hfits hboot
      exact Or.inr ⟨dataSectors, records, hbooted.withStore hlisting⟩
  | format _ hformat ih =>
    rcases ih with hblank | ⟨dataSectors, records, hjournaled⟩
    · exact Or.inr ⟨64, [], hblank.format hformat⟩
    · -- Persistence is enabled, so the format was refused.
      have hguard := (persistentRamfsFormat_success hjournaled.wellFormed hformat).1
      rw [hjournaled.enabled] at hguard
      cases hguard
  | @call machine after files call _ hcall ih =>
    rcases ih with hblank | ⟨dataSectors, records, hjournaled⟩
    · have hnone : callRequest machine call = none := by
        have hdisabled := hblank.disabled rfl
        cases call with
        | write name contents | remove name => exact if_pos (Or.inl (by simp [hdisabled]))
      rw [runCall_of_none hnone] at hcall
      cases hcall
    · obtain ⟨more, hmore⟩ := hjournaled.call hcall
      exact Or.inr ⟨dataSectors, more, hmore⟩

/-- Every reachable system reboots into the files persisted so far. -/
theorem Reachable.reboot (hreach : Reachable running machine files) :
    ∃ booted, reboot machine = (true, booted) ∧ listing booted.store = files := by
  rcases hreach.cases with hblank | ⟨dataSectors, records, hjournaled⟩
  · obtain ⟨booted, hreboot, hbooted⟩ := hblank.reboot
    exact ⟨booted, hreboot, (hbooted.live rfl).trans hbooted.files_eq.symm⟩
  · obtain ⟨booted, hreboot, hbooted⟩ := hjournaled.reboot
    exact ⟨booted, hreboot, hbooted.files_eq.symm⟩

/-- Every reachable system replays to the files persisted so far, and the boot sequence keeps them
exactly when there is a free slot and none of them has the name that the self-test uses. -/
theorem kernel_boot_keeps_files_iff (hreach : Reachable running machine files) :
    (reboot machine).1 = true ∧ listing (reboot machine).2.store = files ∧
      ((∃ after, kernelBoot machine = some after ∧ listing after.store = files) ↔
        SelfTestFits files) := by
  obtain ⟨booted, hboot, rfl⟩ := hreach.reboot
  rw [hboot]
  exact ⟨rfl, rfl, kernelBoot_iff hboot⟩

/-- With sixteen files, none of them `TEST`, the next boot panics. -/
theorem kernel_boot_panics_on_full_store (hreach : Reachable running machine files)
    (hfull : files.length = ramfsMaxFiles) (hfresh : position testName files = none) :
    kernelBoot machine = none := by
  obtain ⟨booted, hboot, rfl⟩ := hreach.reboot
  have hrefused : ramfsSelfTest booted.store = (false, booted.store) :=
    ramfsSelfTest_of_full hfull hfresh
  rw [kernelBoot, hboot]
  simp only [hrefused]

/-- A write that the store has room for succeeds while the log has a free slot. -/
theorem Journaled.write (hjournaled : Journaled machine files dataSectors records)
    {name contents : List UInt8} (hlegal : LegalName (CString.text name))
    (hshort : (CString.text contents).length < ramfsContentMax)
    (hroom : HasRoom (CString.text name) files) (hslot : records.length < dataSectors) :
    ∃ after, runCall (.write (some name) (some contents)) machine = (some true, after) := by
  have hregion : dataSectors + 1 ≤ 65 := hjournaled.holds.dataSectors_lt
  have hnext := hjournaled.nextSequence
  rw [hjournaled.sequences, if_neg (by omega)] at hnext
  have hsequence : machine.persistent.nextSequence ≠ 0 := fun hzero ↦ by
    rw [hzero] at hnext
    cases hnext
  rw [hjournaled.files_eq] at hroom
  have hcan := (ramfsCanWriteFile_eq_some_iff machine.store (some name) (some contents) _).mpr
    ⟨name, contents, rfl, rfl, hlegal, hshort, hroom, rfl⟩
  rcases runCall_step hjournaled.toSynced hjournaled.free (.write (some name) (some contents)) with
    ⟨hnone | hfull, -⟩ | ⟨after, -, -, hcall, -⟩
  · simp [callRequest, hjournaled.enabled, hsequence, hcan] at hnone
  · exact absurd hslot hfull
  · exact ⟨after, hcall⟩

end Boot

/-! ### A run that persists a file `TEST` -/

/-- An empty small drive boots and can be formatted. -/
theorem reachable_formatted :
    ∃ machine, Reachable true machine defaultListing ∧ Journaled machine defaultListing 64 [] := by
  have hfree : FaultFree blankDrive := ⟨fun _ _ ↦ rfl, fun _ ↦ rfl⟩
  have hready := regionReady_smallMachine blankDrive
  have hstart : Reachable false (smallMachine blankDrive) defaultListing :=
    Reachable.blank (some smallIdentify) (smallMachine blankDrive) hfree (by decide)
  have hfits : SelfTestFits defaultListing := ⟨by decide, by decide⟩
  obtain ⟨booted, hboot, hbooted⟩ : ∃ booted, reboot (smallMachine blankDrive) = (true, booted) ∧
      Blank true booted defaultListing ∧ RegionReady booted ∧
      booted.ata.drive.disk = blankDrive.disk := by
    obtain ⟨reads, start, hinit⟩ := @persistentRamfsInit_of_blank
      { smallMachine blankDrive with store := ramfsInit emptyStore } hready.wellFormed (by decide)
    refine ⟨_, hinit, ?_⟩
    rw [ataModel_advance]
    exact ⟨⟨⟨hready.wellFormed.lba48, hready.wellFormed.lba28⟩, ⟨hfree.read, hfree.write⟩,
        (by decide : journalSuperblockDecode (Buffer.zeroed 512) = none), rfl, fun _ ↦ rfl,
        fun _ ↦ listing_ramfsInit emptyStore⟩,
      ⟨⟨hready.wellFormed.lba48, hready.wellFormed.lba28⟩, hready.present, hready.large,
        hready.available⟩, rfl⟩
  obtain ⟨hblank, hregion, hdisk⟩ := hbooted
  have hlive := hblank.live rfl
  obtain ⟨after, hafter, -⟩ := (kernelBoot_iff hboot).mpr (hlive.symm ▸ hfits)
  obtain ⟨store, rfl, hlisting⟩ := kernelBoot_fits hboot (hlive.symm ▸ hfits) hafter
  have hrunning := hblank.withStore hlisting
  have hpristine : ramfsIsPristine store = true := by
    rw [ramfsIsPristine_iff, hlisting, hlive]
  have hformat := persistentRamfsFormat_of_empty
    (⟨hregion.wellFormed, hregion.present, hregion.large, hregion.available⟩ :
      RegionReady { booted with store := store })
    hrunning.free (hrunning.disabled rfl) hpristine fun offset _ ↦ by rw [hdisk]; rfl
  have hsucceeds : persistentRamfsFormat true { booted with store := store } =
      (true, (persistentRamfsFormat true { booted with store := store }).2) :=
    Prod.ext hformat rfl
  exact ⟨_, .format (.boot hstart hfits hafter) hsucceeds, hrunning.format hsucceeds⟩

/-- One more file can be persisted. -/
theorem reachable_written {name : List UInt8} (hlegal : LegalName (CString.text name))
    (hroom : HasRoom (CString.text name) defaultListing) :
    ∃ machine, Reachable true machine
      (writeListing (RamfsFile.copy name (CString.ascii "kept?")) defaultListing) := by
  obtain ⟨machine, hreach, hjournaled⟩ := reachable_formatted
  have hshort : (CString.text (CString.ascii "kept?")).length < ramfsContentMax := by decide
  obtain ⟨after, hcall⟩ := hjournaled.write hlegal hshort hroom (by decide)
  exact ⟨after, .call hreach hcall⟩

/-- The listing of the default files and a file `TEST`. -/
def testListing : List RamfsFile :=
  writeListing (RamfsFile.copy testName (CString.ascii "kept?")) defaultListing

/-- A persisted file `TEST` does not survive the next boot. -/
theorem kernel_boot_loses_test_file :
    ∃ machine, Reachable true machine testListing ∧
      ¬∃ after, kernelBoot machine = some after ∧ listing after.store = testListing := by
  obtain ⟨machine, hreach⟩ : ∃ machine, Reachable true machine testListing :=
    reachable_written legal_testName (by decide)
  obtain ⟨booted, hboot, hlisting⟩ := hreach.reboot
  refine ⟨machine, hreach, ?_⟩
  rw [← hlisting, kernelBoot_iff hboot, hlisting]
  rintro ⟨-, hfresh⟩
  exact absurd hfresh (by decide)

/-- The listing of the default files and a file `NOTE`. -/
def noteListing : List RamfsFile :=
  writeListing (RamfsFile.copy (CString.ascii "NOTE") (CString.ascii "kept?")) defaultListing

/-- A persisted file of another name survives it. -/
theorem kernel_boot_keeps_note_file :
    ∃ machine, Reachable true machine noteListing ∧
      ∃ after, kernelBoot machine = some after ∧ listing after.store = noteListing := by
  obtain ⟨machine, hreach⟩ : ∃ machine, Reachable true machine noteListing :=
    reachable_written (legal_of_validName (by decide)) (by decide)
  exact ⟨machine, hreach,
    (kernel_boot_keeps_files_iff hreach).2.2.mpr ⟨by decide, by decide⟩⟩

end EfesOS.Fs.Persistent
