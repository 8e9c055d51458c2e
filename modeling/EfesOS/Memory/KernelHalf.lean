import EfesOS.Memory.ExecutePermission

/-!
# The kernel's half of the address spaces

A new space copies the directory entries of the kernel. From then on the kernel's directory and the
copies change apart: a table that the kernel makes or frees later is made or freed in its own
directory only. `Call.tables` says which calls do that: the kernel maps the first page of a table
or unmaps the only one (`Call.ChangesTable`).
-/

set_option autoImplicit false

namespace EfesOS.Memory

open EfesOS.Foundation.PageTree

/-- The addresses where a process has no mappings of its own. -/
def OutsideUser (address : UInt32) : Prop := address < userMappingMin ∨ userAddressLimit ≤ address

theorem not_outsideUser_iff {address : UInt32} :
    ¬OutsideUser address ↔ userMappingMin ≤ address ∧ address < userAddressLimit := by
  rw [OutsideUser, not_or, UInt32.not_lt, UInt32.not_le]

/-- The copies that spaces have of the kernel's directory entries are still the kernel's. -/
def NoStale (memory : Ram) : Prop :=
  ∀ root ∈ memory.addressSpaces, ∀ address, OutsideUser address → ∀ entry,
    tableOf root address memory = some entry →
    tableOf memory.kernelPageDirectory address memory = some entry

section Steps

variable {memory : Ram} {role : UInt32 → Option Place} {root address : UInt32}

/-- A copy that is still the kernel's is recognised as such. -/
theorem NoStale.usesSharedKernelTable (hstale : NoStale memory) (h : Isolated memory role)
    (hprivate : memory.pageDirectory ≠ memory.kernelPageDirectory) (houtside : OutsideUser address)
    (hpresent : (directoryEntryOf memory.pageDirectory address memory).present = true) :
    usesSharedKernelTable address memory = true := by
  have hsome : tableOf memory.pageDirectory address memory =
      some (directoryEntryOf memory.pageDirectory address memory) :=
    Entry.view_eq_some.2 ⟨rfl, hpresent⟩
  have hkernel := hstale _ (h.current.resolve_left hprivate) address houtside _ hsome
  obtain ⟨hcurrentNe, hcurrentEntry, -⟩ := tableOf_eq_some_iff.1 hsome
  obtain ⟨hkernelNe, hkernelEntry, -⟩ := tableOf_eq_some_iff.1 hkernel
  have hzero := h.root_ne_zero h.current
  have hkernelZero := h.root_ne_zero (.inl rfl : memory.IsRoot memory.kernelPageDirectory)
  unfold EfesOS.Memory.usesSharedKernelTable
  rw [if_neg (by simp [hzero, hkernelZero, hprivate, hkernelNe, hcurrentNe]), hcurrentEntry,
    hkernelEntry, hpresent]
  simp

/-- A page of a space that is not the kernel's can only be protected where its user has it. -/
theorem NoStale.ownRegion (hstale : NoStale memory) (h : Isolated memory role) {flags : UInt32}
    (hchecked : ProtectChecked address flags memory) :
    Isolated.OwnRegion memory.toPagingState memory.pageDirectory address := by
  by_cases hprivate : memory.pageDirectory = memory.kernelPageDirectory
  · exact .inl hprivate
  by_cases houtside : OutsideUser address
  · obtain ⟨hne, -⟩ := getPageTable_eq_of_present hchecked.present
    have hshared := hstale.usesSharedKernelTable h hprivate houtside (tableOf_isSome hne)
    rw [hchecked.notShared] at hshared
    cases hshared
  · exact .inr (not_outsideUser_iff.1 houtside)

/-- The directory entry of an address outside the user's is not one of an address inside. -/
theorem tablePath_ne_of_outside {mode : Mode} {inside : UInt32} (houtside : OutsideUser address)
    (hinside : userMappingMin ≤ inside ∧ inside < userAddressLimit) :
    mode.tablePath address ≠ mode.tablePath inside := by
  intro hpath
  injection hpath with hindex hupper
  have hregion := (mode.userRegion_iff inside).2 hinside
  rw [← hindex, ← hupper, mode.userRegion_iff] at hregion
  exact not_outsideUser_iff.2 hregion houtside

/-- A page is mapped or unmapped where the call belongs. Then only the kernel can change an entry
outside the user addresses, and that only for the table of the page, in its own half. -/
theorem tableOf_fitting {after : Ram} {place flags : UInt32}
    (hfit : Fitting memory.toPagingState place flags) (houtside : OutsideUser address)
    (hroot : memory.IsRoot root)
    (htables : ∀ other spot, memory.IsRoot other →
      other ≠ memory.pageDirectory ∨ memory.mode.tablePath spot ≠ memory.mode.tablePath place →
      tableOf other spot after = tableOf other spot memory) :
    tableOf root address after = tableOf root address memory ∨
      (flags &&& pageFlagUser = 0 ∧ root = memory.pageDirectory ∧
        memory.mode.tablePath address = memory.mode.tablePath place) ∧
      memory.pageDirectory = memory.kernelPageDirectory ∧ userAddressLimit ≤ place := by
  by_cases hsame : root = memory.pageDirectory ∧
      memory.mode.tablePath address = memory.mode.tablePath place
  swap
  · exact .inl (htables root address hroot (not_and_or.1 hsame))
  rcases hfit with ⟨-, -, hinside⟩ | ⟨huser, hkernel, hhigh⟩
  · exact absurd hsame.2 (tablePath_ne_of_outside houtside hinside)
  · exact .inr ⟨⟨huser, hsame⟩, hkernel, hhigh⟩

/-- A call about this table of the kernel's half: its first page is mapped or its only one is
unmapped. -/
inductive Call.ChangesTable (memory : Ram) (address : UInt32) : Call → Prop
  | made (place physical flags : UInt32) (hhigh : userAddressLimit ≤ place)
      (hpath : memory.mode.tablePath address = memory.mode.tablePath place)
      (hnone : tableOf memory.kernelPageDirectory place memory = none) :
      ChangesTable memory address (.map place physical flags)
  | freed (place : UInt32) (hmapped : mappingOf memory.kernelPageDirectory place memory ≠ none)
      (honly : OnlyPage memory.kernelPageDirectory place memory) :
      ChangesTable memory address (.unmap place)

/-- What an allowed call does to the directory entries outside the user addresses. -/
theorem Call.tables (h : Isolated memory role) (hstale : NoStale memory) (call : Call)
    (hallowed : call.Allowed memory) (hroot : memory.IsRoot root) (houtside : OutsideUser address) :
    tableOf root address (call.run memory) = tableOf root address memory ∨
      root = memory.kernelPageDirectory ∧ memory.pageDirectory = memory.kernelPageDirectory ∧
        call.ChangesTable memory address := by
  cases call with
  | create | switch | destroy | alloc | allocBelow | allocUser | free | write =>
    exact .inl (Call.tableOf_run h hallowed rfl hroot address)
  | map place physical flags =>
    obtain ⟨middle, roleMiddle, hreshapes, hpresent, houtcome⟩ :=
      pagingMapPage_spec h place physical flags hallowed
    have htables : tableOf root address (pagingMapPage place physical flags memory).2 =
        tableOf root address middle ∧ (Fitting memory.toPagingState place flags ∨
          tableOf root address middle = tableOf root address memory) := by
      rcases houtcome with ⟨hfailed, hfit⟩ | ⟨-, hfit, -, -, -, hwrites⟩
      · rw [hfailed]
        exact ⟨rfl, hfit.imp_right fun hsame ↦ hsame root address hroot⟩
      · exact ⟨hwrites.tables root address (by rw [hreshapes.state]; exact hroot), .inl hfit⟩
    rw [Call.run, htables.1]
    rcases htables.2 with hfit | hsame
    swap
    · exact .inl hsame
    rcases tableOf_fitting hfit houtside hroot hreshapes.tables with
      hsame | ⟨⟨huser, hcurrent, hpath⟩, hkernel, hhigh⟩
    · exact .inl hsame
    -- where the kernel had a table nothing was made
    · by_cases hnone : tableOf memory.pageDirectory place memory = none
      · exact .inr ⟨hcurrent.trans hkernel, hkernel,
          .made place physical flags hhigh hpath (hkernel ▸ hnone)⟩
      · exact .inl (by rw [hpresent huser hnone])
  | protect place flags =>
    refine .inl ?_
    rcases pagingProtectPage_spec h place flags with heq | ⟨-, hchecked, -, -, -, hwrites⟩
    · rw [Call.run, heq]
    · exact (hwrites (hstale.ownRegion h hchecked)).tables root address hroot
  | unmap place =>
    rcases pagingUnmapPage_spec h place hallowed with
      ⟨heq, -⟩ | ⟨entry, middle, roleAfter, hmapped, -, hfit, hwrites, hreshapes, -, houtcome⟩
    · exact .inl (by rw [Call.run, heq])
    have hmiddle := hwrites.tables root address hroot
    rcases tableOf_fitting hfit houtside hroot fun other spot hother hspot ↦
      (hreshapes.tables other spot (by rw [hwrites.state]; exact hother)
        (by rw [hwrites.state]; exact hspot)).trans (hwrites.tables other spot hother) with
      hsame | ⟨⟨-, hcurrent, hpath⟩, hkernel, -⟩
    · exact .inl hsame
    rcases houtcome with ⟨heq, -⟩ | hgone
    · exact .inl (by rw [Call.run, heq, hmiddle])
    -- another page of the table would still be mapped
    · refine .inr ⟨hcurrent.trans hkernel, hkernel, .freed place ?_ fun other hother hne ↦ ?_⟩
      · rw [← hkernel, hmapped]
        simp
      · have hregion : Isolated.OwnRegion memory.toPagingState memory.pageDirectory other :=
          .inl hkernel
        have hafter := hreshapes.mappings memory.pageDirectory other
        rw [hwrites.state] at hafter
        rw [← hkernel, ← hwrites.mappings _ other h.current hregion (.inr hne),
          ← hafter h.current hregion]
        refine mappingOf_eq_none ((tableOf_congr ?_).trans hgone)
        rw [hreshapes.state, hwrites.state]
        exact hother

end Steps

/-! ### Runs -/

/-- While spaces are registered, the kernel unmaps no page that is the only one of its table. -/
def FreesNoTable (call : Call) (memory : Ram) : Prop :=
  ∀ place, call = .unmap place → memory.addressSpaces ≠ [] →
    memory.pageDirectory = memory.kernelPageDirectory →
    mappingOf memory.kernelPageDirectory place memory ≠ none →
    ¬OnlyPage memory.kernelPageDirectory place memory

/-- While spaces are registered, the kernel maps pages of its half only where it has a table. -/
def MakesNoTable (call : Call) (memory : Ram) : Prop :=
  ∀ place physical flags, call = .map place physical flags → memory.addressSpaces ≠ [] →
    memory.pageDirectory = memory.kernelPageDirectory → userAddressLimit ≤ place →
    tableOf memory.kernelPageDirectory place memory ≠ none

/-- The spaces have the directory entries of the kernel outside the user addresses. -/
def SharedTables (memory : Ram) : Prop :=
  ∀ root ∈ memory.addressSpaces, ∀ address, OutsideUser address →
    tableOf root address memory = tableOf memory.kernelPageDirectory address memory

theorem SharedTables.noStale {memory : Ram} (hshared : SharedTables memory) : NoStale memory :=
  fun root hroot address houtside _ hentry ↦ (hshared root hroot address houtside).symm.trans hentry

section Runs

variable {memory : Ram} {role : UInt32 → Option Place} {root address : UInt32}

section

variable (h : Isolated memory role) (hstale : NoStale memory) (call : Call)
  (hallowed : call.Allowed memory)
include h hstale call hallowed

/-- A space that was registered before keeps its directory entries outside the user addresses. -/
theorem Call.tables_registered (hroot : root ∈ memory.addressSpaces)
    (houtside : OutsideUser address) :
    tableOf root address (call.run memory) = tableOf root address memory :=
  (call.tables h hstale hallowed (.inr hroot) houtside).resolve_right fun hkernel ↦
    h.kernel (hkernel.1 ▸ hroot)

/-- The kernel keeps its directory entries outside the user addresses, and gets none if it makes no
tables. -/
theorem Call.tables_kernel (hspaces : memory.addressSpaces ≠ []) (hfrees : FreesNoTable call memory)
    (houtside : OutsideUser address)
    (hhas : tableOf memory.kernelPageDirectory address memory ≠ none ∨ MakesNoTable call memory) :
    tableOf memory.kernelPageDirectory address (call.run memory) =
      tableOf memory.kernelPageDirectory address memory := by
  refine (call.tables h hstale hallowed (.inl rfl) houtside).resolve_right ?_
  rintro ⟨-, hkernel, hchanges⟩
  cases hchanges with
  | made place physical flags hhigh hpath hnone =>
    rcases hhas with hsome | hmakes
    · exact hsome ((tableOf_congr hpath).trans hnone)
    · exact hmakes place physical flags rfl hspaces hkernel hhigh hnone
  | freed place hmapped honly => exact hfrees place rfl hspaces hkernel hmapped honly

theorem Call.noStale (hfrees : FreesNoTable call memory) : NoStale (call.run memory) := by
  obtain ⟨directory, spaces, hstate, hspaces⟩ := call.registry h hallowed
  rw [NoStale, hstate]
  intro root hroot address houtside entry hentry
  rcases hspaces root hroot with hold | hnew
  · rw [call.tables_registered h hstale hallowed hold houtside] at hentry
    have hbefore := hstale root hold address houtside entry hentry
    exact (call.tables_kernel h hstale hallowed (List.ne_nil_of_mem hold) hfrees houtside
      (.inl (by simp [hbefore]))).trans hbefore
  · rw [← hnew]
    exact hentry

end

theorem Call.sharedTables (h : Isolated memory role) (hshared : SharedTables memory) (call : Call)
    (hallowed : call.Allowed memory) (hfrees : FreesNoTable call memory)
    (hmakes : MakesNoTable call memory) : SharedTables (call.run memory) := by
  obtain ⟨directory, spaces, hstate, hspaces⟩ := call.registry h hallowed
  rw [SharedTables, hstate]
  intro root hroot address houtside
  rcases hspaces root hroot with hold | hnew
  · rw [call.tables_registered h hshared.noStale hallowed hold houtside,
      hshared root hold address houtside]
    exact (call.tables_kernel h hshared.noStale hallowed (List.ne_nil_of_mem hold) hfrees houtside
      (.inr hmakes)).symm
  · exact hnew address

end Runs

/-- In every run where the kernel makes and frees no table of its half while spaces are registered,
all spaces have one kernel half. -/
theorem kernel_half_shared {features : CpuFeatures} {image : KernelImage} {fontAvailable : Bool}
    {pmm : Pmm} {frames : UInt32 → Page} {memory : Ram} (hmapped : ∀ frame, ¬pmm.Mapped frame)
    (hinit : (pagingInit features image fontAvailable pmm frames).1 = true)
    (hrun : Reaches (fun call before ↦
        call.Allowed before ∧ FreesNoTable call before ∧ MakesNoTable call before)
      (pagingInit features image fontAvailable pmm frames).2 memory) :
    ∀ root ∈ memory.addressSpaces, ∀ address, 0xC0000000 ≤ address →
      translate root address memory = translate memory.kernelPageDirectory address memory := by
  have hbooted := pagingInit_boots hmapped hinit
  obtain ⟨⟨role, h⟩, hshared⟩ := hrun.invariant
    (P := fun memory ↦ (∃ role, Isolated memory role) ∧ SharedTables memory)
    ⟨hbooted.isolated, fun root hroot ↦ by rw [hbooted.spaces] at hroot; cases hroot⟩
    fun before call ⟨⟨role, h⟩, hshared⟩ hallowed ↦
      ⟨call.isolated h hallowed.1, call.sharedTables h hshared hallowed.1 hallowed.2.1 hallowed.2.2⟩
  exact fun root hroot address hhigh ↦
    translate_eq_of_tableOf (hshared root hroot address (.inr hhigh))

/-- A page that the kernel maps into a table from before a space was made is in that space. -/
theorem kernel_half_shared_smallMachine : ∃ pmm memory root,
    pmmInit smallMachine 0x10000 0x80000 = some pmm ∧ root ∈ memory.addressSpaces ∧
      (translate memory.kernelPageDirectory 0xC0001000 memory).isSome = true ∧
      translate root 0xC0001000 memory =
        translate memory.kernelPageDirectory 0xC0001000 memory := by
  have hroot : 0x003F3000 ∈ ((Call.map 0xC0001000 0x00101000 pageFlagWritable).run (Call.create.run
    ((Call.map 0xC0000000 0x00100000 pageFlagWritable).run
      (smallStart ⟨false, false⟩)))).addressSpaces := by decide +kernel
  refine ⟨smallPmm, _, _, pmmInit_smallMachine, hroot, by decide +kernel, kernel_half_shared
    not_mapped_smallPmm (pagingInit_small_ok ⟨false, false⟩) ?_ _ hroot 0xC0001000 (by decide)⟩
  rw [pagingInit_small]
  refine ((Reaches.start.step (.map 0xC0000000 0x00100000 pageFlagWritable)
    ⟨fun _ _ ↦ ⟨by decide +kernel, by decide⟩, by simp [FreesNoTable],
      fun _ _ _ _ hspaces ↦ absurd (by decide +kernel) hspaces⟩).step
    .create ⟨trivial, by simp [FreesNoTable], by simp [MakesNoTable]⟩).step _
    ⟨fun _ _ ↦ ⟨by decide +kernel, by decide⟩, by simp [FreesNoTable], ?_⟩
  rintro _ _ _ ⟨⟩ - - -
  decide +kernel

/-- A page that the kernel maps after a space was made is not in that space. -/
theorem kernel_page_missing : ∃ pmm memory root,
    pmmInit smallMachine 0x10000 0x80000 = some pmm ∧
      Reaches Call.Allowed (pagingInit ⟨false, false⟩ smallImage false pmm fun _ _ ↦ 0).2 memory ∧
      root ∈ memory.addressSpaces ∧
      (translate memory.kernelPageDirectory 0xC0000000 memory).isSome = true ∧
      translate root 0xC0000000 memory = none := by
  refine ⟨smallPmm, (Call.map 0xC0000000 0x00100000 pageFlagWritable).run (Call.create.run
    (smallStart ⟨false, false⟩)), 0x003F2000, pmmInit_smallMachine, ?_, by decide +kernel,
    by decide +kernel, by decide +kernel⟩
  rw [pagingInit_small]
  exact (Reaches.start.step .create trivial).step _ fun _ _ ↦ ⟨by decide +kernel, by decide⟩

end EfesOS.Memory
