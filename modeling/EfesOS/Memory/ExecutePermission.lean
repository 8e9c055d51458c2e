import EfesOS.Memory.UserRange

/-!
# Permission to execute

A page carries the permission to execute twice in the three-level format: as the flag that
`paging_validate_user_execute` reads and as the bit that stops the processor. `ExecuteAgrees` says
that the two agree on the pages of processes and that no directory entry stops the processor on its
own; every call keeps it (`Call.executeAgrees`). `execute_permission_agrees` is what follows for the
walk of the processor.
-/

set_option autoImplicit false

namespace EfesOS.Memory

open EfesOS.Foundation.PageTree

/-- The two permissions of a page agree, and the directory entries leave it to the page. -/
structure ExecuteAgrees (memory : Ram) : Prop where
  tables : ∀ root ∈ memory.addressSpaces, ∀ address,
    userMappingMin ≤ address ∧ address < userAddressLimit → ∀ entry,
    tableOf root address memory = some entry → entry.noExecute = false
  pages : ∀ root ∈ memory.addressSpaces, ∀ address,
    userMappingMin ≤ address ∧ address < userAddressLimit → ∀ entry,
    mappingOf root address memory = some entry → entry.noExecute = !entry.executable

/-- Entries that were there, or that agree themselves, are all that is asked for. -/
theorem ExecuteAgrees.step {before after : Ram} (hbefore : ExecuteAgrees before)
    (htables : ∀ root ∈ after.addressSpaces, ∀ address,
      userMappingMin ≤ address ∧ address < userAddressLimit → ∀ entry,
      tableOf root address after = some entry →
      root ∈ before.addressSpaces ∧ tableOf root address before = some entry ∨
        entry.noExecute = false)
    (hpages : ∀ root ∈ after.addressSpaces, ∀ address,
      userMappingMin ≤ address ∧ address < userAddressLimit → ∀ entry,
      mappingOf root address after = some entry →
      root ∈ before.addressSpaces ∧ mappingOf root address before = some entry ∨
        entry.noExecute = !entry.executable) : ExecuteAgrees after where
  tables root hroot address hinside entry hentry := by
    rcases htables root hroot address hinside entry hentry with ⟨hold, hsame⟩ | hclear
    · exact hbefore.tables root hold address hinside entry hsame
    · exact hclear
  pages root hroot address hinside entry hentry := by
    rcases hpages root hroot address hinside entry hentry with ⟨hold, hsame⟩ | hagrees
    · exact hbefore.pages root hold address hinside entry hsame
    · exact hagrees

/-! ### Entries -/

theorem noExecute_leaf {physical flags : UInt32} (haligned : Aligned physical) :
    (Mode.leaf .pae true physical flags).noExecute =
      !(Mode.leaf .pae true physical flags).executable := by
  rw [executable_leaf haligned]
  by_cases hexecutable : flags &&& pageFlagExecutable = 0
  · rw [noExecute_leaf_pae hexecutable]
    simp [hexecutable]
  · have hhigh : (Mode.leaf .pae true physical flags).high = 0 := if_neg fun h ↦ hexecutable h.2
    rw [Entry.noExecute, hhigh]
    simp [hexecutable]

theorem noExecute_tableEntry (physical flags : UInt32) :
    (tableEntry physical flags).noExecute = false := by
  simp [Entry.noExecute, tableEntry]

section Tables

variable {memory after : Ram} {role : UInt32 → Option Place} {address flags table : UInt32}

variable {root spot : UInt32} {entry : Entry}

/-- A directory entry just made is the one found for the address. -/
theorem tableOf_linked {directory : UInt32} {pmm : Pmm} {roleAfter : UInt32 → Option Place}
    (hafter : Isolated (Isolated.linked directory (memory.mode.directoryIndex address) table
      (tableEntry table flags) pmm memory) roleAfter) (hroot : memory.IsRoot root)
    (hrole : roleAfter directory = some ⟨root, memory.mode.directoryPath address⟩)
    (hpath : memory.mode.tablePath spot = memory.mode.tablePath address)
    (hentry : tableOf root spot (Isolated.linked directory (memory.mode.directoryIndex address)
      table (tableEntry table flags) pmm memory) = some entry) :
    entry = tableEntry table flags := by
  injection hpath with hindex hupper
  obtain ⟨frame, hframe, rfl, -⟩ := (hafter.tableOf_eq_some
    (by rw [Isolated.toPagingState_linked]; exact hroot)).1 hentry
  rw [Isolated.toPagingState_linked, hupper] at hframe
  rw [hafter.typed.injective hframe hrole, Isolated.toPagingState_linked, hindex]
  exact Isolated.entry_grafted_self fun _ ↦ rfl

/-- Finding or making a table changes no directory entry but that of a new table. -/
theorem Ensured.tableOf_eq (hensured : Ensured address flags memory table after)
    (h : Isolated memory role) (hfit : Fitting memory.toPagingState address flags)
    (hpath : memory.mode.tablePath spot = memory.mode.tablePath address)
    (hentry : tableOf memory.pageDirectory spot after = some entry) :
    tableOf memory.pageDirectory spot memory = some entry ∨ entry = tableEntry table flags := by
  cases hensured with
  | failed => exact .inl hentry
  | directoryOnly directory pmm hmode hnone htakes =>
    rw [tableOf_directoryOnly h hmode hnone htakes h.current] at hentry
    exact .inl hentry
  | found directory hdirectory hne hpresent =>
    split_ifs at hentry with huser
    · subst hdirectory
      have hprivate := hfit.user_iff.1 huser
      have hsome : (directoryEntryOf memory.pageDirectory address memory).present = true := by
        rw [directoryEntryOf, if_neg hne]
        exact hpresent
      have hframes := frames_mark_user h hprivate (hfit.region_iff.1 hprivate) hsome
      rw [tableOf_eq_of_frames h h.current (by rw [Ram.toPagingState_setEntry])
        (fun _ _ _ _ ↦ by rw [hframes])] at hentry
      exact .inl hentry
    · exact .inl hentry
  | made directory table pmm hdirectory hne habsent htakes =>
    subst hdirectory
    have hrole := h.role_directoryFor h.current hne
    have hreshapes := reshapes_table h hfit hrole habsent htakes
    refine .inr (tableOf_linked hreshapes.isolated h.current ?_ hpath hentry)
    rw [Function.update_of_ne (h.fresh_ne hrole htakes).symm, hrole]
  | madeBoth directory table pmm next hmode hnone htakes hnext =>
    have hfirst := reshapes_directory h hmode hnone htakes
    have hparent := h.fresh_ne (h.typed.top _ h.current) htakes
    have hother : directory ≠ table := by
      rintro rfl
      exact hnext.free ((htakes.held _).2 (.inr rfl))
    generalize hgrown : Isolated.linked memory.pageDirectory (pdptIndex address) directory
      (directoryEntry directory) pmm memory = grown at *
    have hstate := hfirst.state
    have hpmm : grown.pmm = pmm := by
      rw [← hgrown, Isolated.pmm_linked]
    have hempty : ∀ index, grown.entry directory index = .absent := by
      rw [← hgrown]
      exact Isolated.entry_linked_fresh hparent
    have hmadeRole : Function.update role directory
        (some ⟨memory.pageDirectory, [pdptIndex address]⟩) directory =
        some ⟨grown.pageDirectory, grown.mode.directoryPath address⟩ := by
      rw [Function.update_self, hstate, hmode]
      rfl
    have hsecond := reshapes_table hfirst.isolated (by rw [hstate]; exact hfit) hmadeRole
      (by rw [hempty]; rfl) (by rw [hpmm]; exact hnext)
    rw [← hstate] at hentry hpath ⊢
    refine .inr (tableOf_linked hsecond.isolated hfirst.isolated.current ?_ hpath hentry)
    rw [Function.update_of_ne hother, hmadeRole]

/-- Unmapping a page changes no directory entry but takes that of a table with its last page. -/
theorem tableOf_unmap (h : Isolated memory role) (hcaller : UnmapsInOwnHalf address memory)
    (hroot : memory.IsRoot root)
    (hentry : tableOf root spot (pagingUnmapPage address memory).2 = some entry) :
    tableOf root spot memory = some entry := by
  rcases pagingUnmapPage_spec h address hcaller with
    ⟨heq, -⟩ | ⟨leaf, middle, roleAfter, -, -, hfit, hwrites, hreshapes, -, houtcome⟩
  · rw [heq] at hentry
    exact hentry
  by_cases hsame : root = memory.pageDirectory ∧
      memory.mode.tablePath spot = memory.mode.tablePath address
  · rcases houtcome with ⟨hmiddle, -⟩ | hgone
    · rw [hmiddle, hwrites.tables root spot hroot] at hentry
      exact hentry
    · have hpath : (pagingUnmapPage address memory).2.mode.tablePath spot =
          (pagingUnmapPage address memory).2.mode.tablePath address := by
        rw [hreshapes.state, hwrites.state]
        exact hsame.2
      rw [tableOf_congr hpath, hsame.1, hgone] at hentry
      cases hentry
  · rw [hreshapes.tables root spot (by rw [hwrites.state]; exact hroot)
      (by rw [hwrites.state]; exact not_and_or.1 hsame), hwrites.tables root spot hroot] at hentry
    exact hentry

/-- Mapping a page changes no directory entry but makes that of a new table. -/
theorem tableOf_map (h : Isolated memory role) {physical : UInt32}
    (hallowed : (Call.map address physical flags).Allowed memory) (hroot : memory.IsRoot root)
    (hentry : tableOf root spot (pagingMapPage address physical flags memory).2 = some entry) :
    tableOf root spot memory = some entry ∨ ∃ table, entry = tableEntry table flags := by
  rcases pagingMapPage_cases address physical flags memory with
    hrefused | ⟨hchecked, table, middle, hensure, houtcome⟩
  · rw [hrefused] at hentry
    exact .inl hentry
  have hensured := ensured_ensurePageTable h address flags
  rw [hensure] at hensured
  by_cases hcaller : MapsInOwnHalf address flags memory
  · have hfit := hchecked.fitting hcaller
    obtain ⟨roleMiddle, hreshapes, hrole⟩ := hensured.reshapes h hfit
    have hmiddle : tableOf root spot middle = some entry := by
      rcases houtcome with ⟨hresult, -⟩ | ⟨-, hstored⟩
      · rw [hresult] at hentry
        exact hentry
      · have hmiddleRole : roleMiddle table =
            some ⟨middle.pageDirectory, middle.mode.tablePath address⟩ := by
          rw [hreshapes.state]
          exact hrole.resolve_left hstored.table_ne
        have hwrites := hstored.writes hreshapes.isolated (by rw [hreshapes.state]; exact hfit)
          hchecked.physicalAligned hchecked.flagsAllowed hmiddleRole
        rw [hwrites.tables root spot (by rw [hreshapes.state]; exact hroot)] at hentry
        exact hentry
    by_cases hsame : root = memory.pageDirectory ∧
        memory.mode.tablePath spot = memory.mode.tablePath address
    · rw [hsame.1] at hmiddle ⊢
      exact (hensured.tableOf_eq h hfit hsame.2 hmiddle).imp_right fun heq ↦ ⟨table, heq⟩
    · rw [hreshapes.tables root spot hroot (not_and_or.1 hsame)] at hmiddle
      exact .inl hmiddle
  · -- the call fails, and leaves the directory entries as they are
    have huser : flags &&& pageFlagUser = 0 := not_not.1 fun huser ↦
      hcaller fun hkernel ↦ absurd hkernel huser
    rcases houtcome with ⟨hresult, hfail⟩ | ⟨hresult, -⟩
    · obtain ⟨-, htables⟩ := hensured.present_of_not_found h huser
        (hfail.imp_right fun hrest ↦ hrest.resolve_right fun hclaim ↦ hclaim.1 huser)
      rw [hresult, htables root spot hroot] at hentry
      exact .inl hentry
    · exact absurd (hallowed hresult) hcaller

/-- The kernel has no table where the processes have theirs. -/
theorem Isolated.kernel_tableOf (h : Isolated memory role)
    (hinside : userMappingMin ≤ address ∧ address < userAddressLimit) :
    tableOf memory.kernelPageDirectory address memory = none := by
  rw [Option.eq_none_iff_forall_ne_some]
  intro entry hentry
  obtain ⟨frame, hrole, rfl, hpresent⟩ := (h.tableOf_eq_some (.inl rfl)).1 hentry
  have hadmits := h.typed.admits _ _ _ hrole hpresent
  simp only [discipline, level_directoryPath] at hadmits
  exact (hadmits (memory.mode.directoryIndex_lt address)).2 trivial
    ((memory.mode.userRegion_iff address).2 hinside)

/-- An address without a table has no mapping. -/
theorem mappingOf_eq_none {root : UInt32} (htable : tableOf root address memory = none) :
    mappingOf root address memory = none := by
  rw [tableOf, Entry.view_eq_none] at htable
  rw [mappingOf, leafOf, getPageTableFor_eq, htable, if_neg Bool.false_ne_true, if_pos rfl]
  rfl

end Tables

/-! ### Steps -/

section Steps

variable {memory : Ram} {role : UInt32 → Option Place}

/-- Calls of the paging code with any arguments. Mappings that are not the user's are made and
removed only above the user addresses and with the kernel's directory in use, and the page tables
are not touched otherwise. -/
def Call.Permitted : Call → Ram → Prop
  | .unmap address, memory =>
    pagingUnmapPage address memory = (0, memory) ∨ UnmapsInOwnHalf address memory
  | call, memory => call.Allowed memory

theorem Call.Permitted.cases {call : Call} (hpermitted : call.Permitted memory) :
    call.run memory = memory ∨ call.Allowed memory := by
  cases call
  case unmap address =>
    rcases hpermitted with hrefused | hallowed
    · exact .inl (by rw [Call.run, hrefused])
    · exact .inr hallowed
  all_goals exact .inr hpermitted

theorem Call.Allowed.permitted {call : Call} (hallowed : call.Allowed memory) :
    call.Permitted memory := by
  cases call
  case unmap address => exact .inr hallowed
  all_goals exact hallowed

section

variable (hbefore : ExecuteAgrees memory) (h : Isolated memory role)
include hbefore h

/-- A call about no page gives a new space the directory entries of the kernel, which has none for
the user addresses. -/
theorem ExecuteAgrees.of_page_none {call : Call} (hallowed : call.Allowed memory)
    (hnone : call.page = none) : ExecuteAgrees (call.run memory) := by
  obtain ⟨directory, spaces, hstate, hspaces⟩ := call.registry h hallowed
  have hold : ∀ root ∈ spaces, ∀ address, userMappingMin ≤ address ∧ address < userAddressLimit →
      tableOf root address (call.run memory) ≠ none → root ∈ memory.addressSpaces := by
    intro root hroot address hinside hsome
    refine (hspaces root hroot).resolve_right fun htables ↦ hsome ?_
    rw [htables, Call.tableOf_run h hallowed hnone (.inl rfl), h.kernel_tableOf hinside]
  refine hbefore.step ?_ ?_ <;> rw [hstate]
  · intro root hroot address hinside entry hentry
    have hmem := hold root hroot address hinside (by rw [hentry]; exact Option.some_ne_none _)
    rw [Call.tableOf_run h hallowed hnone (.inr hmem)] at hentry
    exact .inl ⟨hmem, hentry⟩
  · intro root hroot address hinside entry hentry
    have hmem := hold root hroot address hinside fun habsent ↦ by
      rw [mappingOf_eq_none habsent] at hentry
      cases hentry
    rw [Call.mappingOf_run h hallowed hnone (.inr hmem) (.inr hinside)] at hentry
    exact .inl ⟨hmem, hentry⟩

theorem ExecuteAgrees.map (hmode : memory.mode = .pae) (hnx : memory.paeNxEnabled = true)
    {place physical flags : UInt32} (hallowed : (Call.map place physical flags).Allowed memory) :
    ExecuteAgrees ((Call.map place physical flags).run memory) := by
  rw [Call.run]
  obtain ⟨middle, roleMiddle, hreshapes, -, houtcome⟩ :=
    pagingMapPage_spec h place physical flags hallowed
  have hstate : (pagingMapPage place physical flags memory).2.toPagingState =
      memory.toPagingState := by
    rcases houtcome with ⟨hfailed, -⟩ | ⟨-, -, -, -, -, hwrites⟩
    · rw [hfailed, hreshapes.state]
    · rw [hwrites.state, hreshapes.state]
  refine hbefore.step ?_ ?_ <;> rw [hstate]
  · intro root hroot address _ entry hentry
    rcases tableOf_map h hallowed (.inr hroot) hentry with hold | ⟨table, rfl⟩
    · exact .inl ⟨hroot, hold⟩
    · exact .inr (noExecute_tableEntry table flags)
  · intro root hroot address hinside entry hentry
    have hmiddle := hreshapes.mappings root address (.inr hroot) (.inr hinside)
    rcases houtcome with ⟨hfailed, -⟩ | ⟨-, -, hchecked, -, -, hwrites⟩
    · rw [hfailed, hmiddle] at hentry
      exact .inl ⟨hroot, hentry⟩
    rw [hwrites.mappingOf_eq (by rw [hreshapes.state]; exact .inr hroot) (.inr hinside)] at hentry
    split_ifs at hentry
    · rw [hmode, hnx] at hentry
      injection hentry with hentry
      rw [← hentry]
      exact .inr (noExecute_leaf hchecked.physicalAligned)
    · exact .inl ⟨hroot, hmiddle ▸ hentry⟩

/-- A change of flags goes to a page of a process or to one of the kernel, never to a directory. -/
theorem ExecuteAgrees.protect (hmode : memory.mode = .pae) (hnx : memory.paeNxEnabled = true)
    (place flags : UInt32) :
    ExecuteAgrees ((Call.protect place flags).run memory) := by
  rw [Call.run]
  rcases pagingProtectPage_cases h place flags with heq | ⟨-, hchecked, hpmm, hstores⟩
  · rw [heq]
    exact hbefore
  have hafter := hchecked.isolated h hstores hpmm
  have hstate := hstores.state
  obtain ⟨hne, hcurrent⟩ := getPageTable_eq_of_present hchecked.present
  refine hbefore.step ?_ ?_ <;> rw [hstate]
  · intro root hroot address hinside entry hentry
    obtain ⟨frame, hframe, hstored, hpresent⟩ := (hafter.tableOf_eq_some
      (by rw [hstate]; exact .inr hroot)).1 hentry
    rw [hstate] at hframe hstored
    by_cases hsame : frame = getPageTable place memory ∧
        memory.mode.directoryIndex address = memory.mode.tableIndex place
    · -- the entry would be the user's, so that the address is and the frame is a table
      have hold := hchecked.present
      rw [hcurrent, ← hsame.1, ← hsame.2] at hold
      have hadmits := h.typed.admits _ _ _ hframe hold
      simp only [discipline, level_directoryPath] at hadmits
      have huser := ((hadmits (memory.mode.directoryIndex_lt address)).1).2
        ⟨fun hkernel ↦ h.kernel (hkernel ▸ hroot), (memory.mode.userRegion_iff address).2 hinside⟩
      rw [hsame.1, hsame.2, ← hcurrent, hchecked.user, decide_eq_true_eq] at huser
      have hallowed := hchecked.userAllowed
      simp only [userMappingRefused, not_and, not_or, UInt32.not_lt, UInt32.not_le] at hallowed
      have htable := ((h.getPageTableFor_cases h.current (.inr (hallowed huser).2)).resolve_left
        fun hzero ↦ hne hzero.1).2
      have htableFrame : role frame = some ⟨memory.pageDirectory, memory.mode.tablePath place⟩ := by
        rw [hsame.1]
        exact htable
      rw [hframe] at htableFrame
      injection htableFrame with hnode
      exact absurd (congrArg Node.path hnode) (directoryPath_ne_tablePath _ _ _)
    · rw [hstores.other hsame] at hstored
      exact .inl ⟨hroot, (h.tableOf_eq_some (.inr hroot)).2 ⟨frame, hframe, hstored, hpresent⟩⟩
  · intro root hroot address hinside entry hentry
    obtain ⟨frame, hframe, hstored, hpresent⟩ := (hafter.mappingOf_eq_some
      (by rw [hstate]; exact .inr hroot) (.inr hinside)).1 hentry
    rw [hstate] at hframe hstored
    by_cases hsame : frame = getPageTable place memory ∧
        memory.mode.tableIndex address = memory.mode.tableIndex place
    · rw [hsame.1, hsame.2, hstores.self] at hstored
      refine .inr ?_
      rw [← hstored, protectedEntry, hmode, hnx]
      exact noExecute_leaf (Entry.aligned_physical _)
    · rw [hstores.other hsame] at hstored
      exact .inl ⟨hroot, (h.mappingOf_eq_some (.inr hroot) (.inr hinside)).2
        ⟨frame, hframe, hstored, hpresent⟩⟩

theorem ExecuteAgrees.unmap {place : UInt32} (hallowed : (Call.unmap place).Allowed memory) :
    ExecuteAgrees ((Call.unmap place).run memory) := by
  rw [Call.run]
  rcases pagingUnmapPage_spec h place hallowed with
    ⟨heq, -⟩ | ⟨leaf, middle, roleAfter, -, -, -, hwrites, hreshapes, -⟩
  · rw [heq]
    exact hbefore
  have hstate := hreshapes.state.trans hwrites.state
  refine hbefore.step ?_ ?_ <;> rw [hstate]
  · intro root hroot address _ entry hentry
    exact .inl ⟨hroot, tableOf_unmap h hallowed (.inr hroot) hentry⟩
  · intro root hroot address hinside entry hentry
    rw [hreshapes.mappings root address (by rw [hwrites.state]; exact .inr hroot)
      (.inr hinside), hwrites.mappingOf_eq (.inr hroot) (.inr hinside)] at hentry
    split_ifs at hentry
    exact .inl ⟨hroot, hentry⟩

/-- Every call keeps the two permissions in agreement. -/
theorem Call.executeAgrees (hmode : memory.mode = .pae) (hnx : memory.paeNxEnabled = true)
    (call : Call) (hallowed : call.Allowed memory) : ExecuteAgrees (call.run memory) := by
  cases call with
  | create | switch | destroy | alloc | allocBelow | allocUser | free | write =>
    exact hbefore.of_page_none h hallowed rfl
  | map place physical flags => exact hbefore.map h hmode hnx hallowed
  | protect place flags => exact hbefore.protect h hmode hnx place flags
  | unmap place => exact hbefore.unmap h hallowed

end

end Steps

/-! ### Runs -/

/-- The states of runs with permitted calls are isolated, and the two permissions agree. -/
theorem Reaches.executeAgrees {start memory : Ram} (hrun : Reaches Call.Permitted start memory)
    (hstart : ∃ role, Isolated start role) (hspaces : start.addressSpaces = []) :
    (∃ role, Isolated memory role) ∧
      (memory.mode = .pae → memory.paeNxEnabled = true → ExecuteAgrees memory) := by
  refine hrun.invariant (P := fun memory ↦ (∃ role, Isolated memory role) ∧
    (memory.mode = .pae → memory.paeNxEnabled = true → ExecuteAgrees memory)) ⟨hstart, ?_⟩ ?_
  · intro _ _
    constructor <;> intro root hroot <;> rw [hspaces] at hroot <;> cases hroot
  · rintro before call ⟨⟨role, h⟩, hagrees⟩ hpermitted
    rcases hpermitted.cases with hsame | hallowed
    · rw [hsame]
      exact ⟨⟨role, h⟩, hagrees⟩
    · refine ⟨call.isolated h hallowed, fun hmode hnx ↦ ?_⟩
      obtain ⟨hmodeSame, hnxSame⟩ := call.format h hallowed
      rw [hmodeSame] at hmode
      rw [hnxSame] at hnx
      exact call.executeAgrees (hagrees hmode hnx) h hmode hnx hallowed

/-- The processor lets ring 3 fetch an instruction: the page is present and the user's at every
level, and no level forbids it. -/
def MayFetch (memory : Ram) (address : UInt32) : Prop :=
  ∃ page, translate memory.pageDirectory address memory = some page ∧ page.user = true ∧
    page.executable = true

/-- The processor lets ring 3 store. -/
def MayStore (memory : Ram) (address : UInt32) : Prop :=
  ∃ page, translate memory.pageDirectory address memory = some page ∧ page.user = true ∧
    page.writable = true

section

variable {memory : Ram} {role : UInt32 → Option Place} {address : UInt32}

theorem mayFetch_iff (hnx : memory.paeNxEnabled = true) :
    MayFetch memory address ↔ UserAccessible memory.pageDirectory address memory ∧
      (directoryEntryOf memory.pageDirectory address memory).noExecute = false ∧
      (leafOf memory.pageDirectory address memory).noExecute = false := by
  unfold MayFetch translate UserAccessible
  dsimp only
  rw [hnx]
  split_ifs with hpresent
  · rw [Bool.and_eq_true] at hpresent
    simp [hpresent.1, hpresent.2, and_assoc]
  · constructor
    · rintro ⟨page, hpage, -⟩
      cases hpage
    · rintro ⟨⟨hdirectory, -, hleaf, -⟩, -⟩
      exact absurd (by rw [hdirectory, hleaf]; rfl) hpresent

theorem mayStore_iff :
    MayStore memory address ↔ UserAccessible memory.pageDirectory address memory ∧
      (directoryEntryOf memory.pageDirectory address memory).writable = true ∧
      (leafOf memory.pageDirectory address memory).writable = true := by
  unfold MayStore translate UserAccessible
  dsimp only
  split_ifs with hpresent
  · rw [Bool.and_eq_true] at hpresent
    simp [hpresent.1, hpresent.2, and_assoc]
  · constructor
    · rintro ⟨page, hpage, -⟩
      cases hpage
    · rintro ⟨⟨hdirectory, -, hleaf, -⟩, -⟩
      exact absurd (by rw [hdirectory, hleaf]; rfl) hpresent

theorem pagingValidateUserExecute_iff (hnx : memory.paeNxEnabled = true)
    (hcurrent : memory.pageDirectory ≠ 0) :
    pagingValidateUserExecute address memory = true ↔
      (pageSize ≤ address ∧ address < userAddressLimit) ∧
      UserAccessible memory.pageDirectory address memory ∧
      (leafOf memory.pageDirectory address memory).writable = false ∧
      (leafOf memory.pageDirectory address memory).executable = true ∧
      (leafOf memory.pageDirectory address memory).noExecute = false := by
  unfold pagingValidateUserExecute
  split_ifs with hrange
  · refine ⟨by simp, fun h ↦ ?_⟩
    rcases hrange with hzero | hlow | hhigh
    · exact absurd hzero hcurrent
    · exact absurd h.1.1 (UInt32.not_le.2 hlow)
    · exact absurd h.1.2 (UInt32.not_lt.2 hhigh)
  · simp only [not_or, UInt32.not_lt, UInt32.not_le] at hrange
    simp only [Bool.and_eq_true, pageIsUserAccessible_iff, Grants, currentEntry_eq, hnx]
    simp [hrange.2.1, hrange.2.2, and_assoc]

theorem Isolated.mayFetch_iff (h : Isolated memory role) (hagrees : ExecuteAgrees memory)
    (hmode : memory.mode = .pae) (hnx : memory.paeNxEnabled = true) (address : UInt32) :
    (MayFetch memory address ↔ pagingValidateUserExecute address memory = true) ∧
      ¬(MayFetch memory address ∧ MayStore memory address) := by
  rw [EfesOS.Memory.mayFetch_iff hnx, mayStore_iff,
    pagingValidateUserExecute_iff hnx (h.root_ne_zero h.current)]
  by_cases haccess : UserAccessible memory.pageDirectory address memory
  swap
  · simp [haccess]
  obtain ⟨hprivate, hmin, hlimit, -, hexclusive⟩ := h.userAccessible h.current haccess
  have hspace := h.current.resolve_left hprivate
  have htable := hagrees.tables _ hspace address ⟨hmin, hlimit⟩ _
    (Entry.view_eq_some.2 ⟨rfl, haccess.1⟩)
  have hpage := hagrees.pages _ hspace address ⟨hmin, hlimit⟩ _
    (Entry.view_eq_some.2 ⟨rfl, haccess.2.2.1⟩)
  have hwritable : (leafOf memory.pageDirectory address memory).noExecute = false →
      (leafOf memory.pageDirectory address memory).writable = false := by
    intro hclear
    by_contra hset
    exact hexclusive (by simpa using hset) (.inr ⟨hmode, hnx, hclear⟩)
  have hlow : pageSize ≤ address := UInt32.le_trans (by decide) hmin
  constructor
  · constructor
    · rintro ⟨-, -, hclear⟩
      refine ⟨⟨hlow, hlimit⟩, haccess, hwritable hclear, ?_, hclear⟩
      rw [hclear] at hpage
      simpa using hpage
    · rintro ⟨-, -, -, -, hclear⟩
      exact ⟨haccess, htable, hclear⟩
  · rintro ⟨⟨-, -, hclear⟩, -, -, hset⟩
    rw [hwritable hclear] at hset
    cases hset

end

/-- In every state of every run in the three-level format with the no-execute bit, the processor
lets ring 3 execute exactly what `paging_validate_user_execute` accepts, and never what ring 3 may
write. -/
theorem execute_permission_agrees {features : CpuFeatures} {image : KernelImage}
    {fontAvailable : Bool} {pmm : Pmm} {frames : UInt32 → Page} {memory : Ram}
    (hmapped : ∀ frame, ¬pmm.Mapped frame)
    (hinit : (pagingInit features image fontAvailable pmm frames).1 = true)
    (hrun : Reaches Call.Permitted (pagingInit features image fontAvailable pmm frames).2 memory)
    (hmode : memory.mode = .pae) (hnx : memory.paeNxEnabled = true) (address : UInt32) :
    (MayFetch memory address ↔ pagingValidateUserExecute address memory = true) ∧
      ¬(MayFetch memory address ∧ MayStore memory address) := by
  obtain ⟨hisolated, -, -, hspaces⟩ := pagingInit_boots hmapped hinit
  obtain ⟨⟨role, h⟩, hagrees⟩ := hrun.executeAgrees hisolated hspaces
  exact h.mayFetch_iff (hagrees hmode hnx) hmode hnx address

/-- A process with a page that it can execute. -/
theorem execute_permission_agrees_smallMachine : ∃ pmm memory,
    pmmInit smallMachine 0x10000 0x80000 = some pmm ∧ memory.mode = .pae ∧
      memory.paeNxEnabled = true ∧ MayFetch memory 0x00400000 ∧
      pagingValidateUserExecute 0x00400000 memory = true ∧ ¬MayStore memory 0x00400000 := by
  have hrun := (reaches_smallProcess ⟨true, true⟩ (by decide : (0x204 : UInt32) &&& 4 ≠ 0)).mono
    fun call before hallowed ↦ hallowed.permitted
  have hvalid : pagingValidateUserExecute 0x00400000 (smallProcess ⟨true, true⟩ 0x204) = true := by
    decide +kernel
  obtain ⟨hiff, hexclusive⟩ := execute_permission_agrees not_mapped_smallPmm
    (pagingInit_small_ok _) hrun (by decide +kernel) (by decide +kernel) 0x00400000
  exact ⟨smallPmm, _, pmmInit_smallMachine, by decide +kernel, by decide +kernel, hiff.2 hvalid,
    hvalid, fun hstore ↦ hexclusive ⟨hiff.2 hvalid, hstore⟩⟩

end EfesOS.Memory
