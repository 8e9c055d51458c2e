import EfesOS.Memory.ExecutePermission

/-!
# Mappings that fail

`paging_map_page` makes the tables on the way to a page before it looks at the page's entry and
claims its frame. A call that fails then keeps the tables. `map_failure_clean_iff` says when that
happens: the address has no table, there is a frame for one, and either the frame to be mapped is
mapped already or the last frame went into a page directory (`LeavesTable`). Every other call that
fails leaves the spaces and the allocator as they were (`FailsClean`).
-/

set_option autoImplicit false

namespace EfesOS.Memory

open EfesOS.Foundation.PageTree

/-- A call that fails changes nothing: no translation in any registered space, no bitmap and no
count of the allocator. -/
def FailsClean (address physical flags : UInt32) (memory : Ram) : Prop :=
  (pagingMapPage address physical flags memory).1 = false →
    (pagingMapPage address physical flags memory).2.toPagingState = memory.toPagingState ∧
    (∀ root, memory.IsRoot root → ∀ place,
      translate root place (pagingMapPage address physical flags memory).2 =
        translate root place memory) ∧
    (pagingMapPage address physical flags memory).2.pmm = memory.pmm

/-- The call passes all checks that `paging_map_page` makes before it looks for a table. -/
def MapAccepted (address physical flags : UInt32) (memory : Ram) : Prop :=
  ¬(memory.pageDirectory = 0 ∨ address < pageSize ∨ physical < pageSize ∨ ¬Aligned address ∨
    ¬Aligned physical ∨ flagsRefused flags ∨
    (flags &&& pageFlagUser ≠ 0 ∧ pmmBlockIsUserOwned physical memory.pmm = false) ∨
    userMappingRefused address flags memory ∨ usesSharedKernelTable address memory = true)

/-- The address has no table and there is a frame for one, but the frame to be mapped is mapped
already, or the page directory is missing as well and takes the only frame. -/
def LeavesTable (address physical flags : UInt32) (memory : Ram) : Prop :=
  MapAccepted address physical flags memory ∧
    tableOf memory.pageDirectory address memory = none ∧ 0 < memory.pmm.tableRoom ∧
    (flags &&& pageFlagUser ≠ 0 ∧ memory.pmm.Mapped physical ∨
      directoryFor memory.pageDirectory address memory = 0 ∧ memory.pmm.tableRoom = 1)

section

variable {memory : Ram} {role : UInt32 → Option Place} {address physical flags : UInt32}

/-- Whatever is taken, the allocator is not as before. -/
theorem Pmm.Takes.ne {pmm other : Pmm} {frame : UInt32} {owned : Bool}
    (htakes : pmm.Takes frame owned other) : other ≠ pmm := by
  rintro rfl
  exact htakes.free ((htakes.held frame).2 (.inr rfl))

/-- A frame was taken on the way to a table. There is no table after that where the frame was the
last and went into a page directory; otherwise the table is there and empty. -/
structure TableMade (address : UInt32) (memory : Ram) (table : UInt32) (middle : Ram) : Prop where
  room : 0 < memory.pmm.tableRoom
  changed : middle.pmm ≠ memory.pmm
  owned : ∀ frame, middle.pmm.Owned frame ↔ memory.pmm.Owned frame
  mapped : ∀ frame, middle.pmm.Mapped frame ↔ memory.pmm.Mapped frame
  zero_iff : table = 0 ↔ directoryFor memory.pageDirectory address memory = 0 ∧
    memory.pmm.tableRoom = 1
  empty : table ≠ 0 → ∀ index, (middle.entry table index).present = false

theorem Pmm.Takes.owned_iff {pmm other : Pmm} {frame : UInt32}
    (htakes : pmm.Takes frame false other)
    (x : UInt32) : other.Owned x ↔ pmm.Owned x := by
  rw [htakes.owned]
  simp

/-- Where an address has no table, one is made if there is room. -/
theorem Ensured.tableMade {table : UInt32} {middle : Ram}
    (hensured : Ensured address flags memory table middle) (h : Isolated memory role)
    (hnone : tableOf memory.pageDirectory address memory = none) :
    table = 0 ∧ middle = memory ∧ memory.pmm.tableRoom = 0 ∨
      TableMade address memory table middle := by
  cases hensured with
  | failed hroom => exact .inl ⟨rfl, rfl, hroom hnone⟩
  | directoryOnly directory pmm hmode hmissing htakes hroom =>
    refine .inr ⟨by omega, ?_, ?_, ?_, iff_of_true rfl ⟨hmissing, hroom⟩, fun hne ↦ absurd rfl hne⟩
    all_goals rw [Isolated.pmm_linked]
    exacts [htakes.ne, htakes.owned_iff, htakes.mapped]
  | found directory hdirectory hne hpresent =>
    rw [tableOf, Entry.view_eq_none, directoryEntryOf, hdirectory, if_neg hne, hpresent] at hnone
    cases hnone
  | made directory table pmm hdirectory hne habsent htakes hroom =>
    subst hdirectory
    have hfresh := h.fresh_ne (h.role_directoryFor h.current hne) htakes
    refine .inr ⟨hroom, ?_, ?_, ?_, iff_of_false htakes.nonzero fun hmissing ↦ hne hmissing.1,
      fun _ index ↦ by rw [Isolated.entry_linked_fresh hfresh]; rfl⟩
    all_goals rw [Isolated.pmm_linked]
    exacts [htakes.ne, htakes.owned_iff, htakes.mapped]
  | madeBoth directory table pmm next hmode hmissing htakes hnext hroom =>
    have hother : table ≠ directory := by
      rintro rfl
      exact hnext.free ((htakes.held _).2 (.inr rfl))
    refine .inr ⟨by omega, ?_, fun frame ↦ ?_, fun frame ↦ ?_,
      iff_of_false hnext.nonzero fun hlast ↦ ?_, fun _ index ↦ ?_⟩
    · rw [Isolated.pmm_linked]
      rintro rfl
      exact htakes.free ((hnext.held _).2 (.inl ((htakes.held _).2 (.inr rfl))))
    · rw [Isolated.pmm_linked, hnext.owned_iff, htakes.owned_iff]
    · rw [Isolated.pmm_linked, hnext.mapped, htakes.mapped]
    · exact absurd hlast.2 (by omega)
    · rw [Isolated.entry_linked_fresh hother]
      rfl

/-- Where an address has its table, looking for it changes nothing. -/
theorem ensurePageTable_present (h : Isolated memory role)
    (haccepted : MapAccepted address physical flags memory)
    (hsome : tableOf memory.pageDirectory address memory ≠ none) :
    (ensurePageTable address flags memory).2.toPagingState = memory.toPagingState ∧
      (ensurePageTable address flags memory).2.frames = memory.frames ∧
      (ensurePageTable address flags memory).2.pmm = memory.pmm := by
  have hpresent : (directoryEntryOf memory.pageDirectory address memory).present = true := by
    by_contra habsent
    exact hsome (Entry.view_eq_none.2 (by simpa using habsent))
  have hdirectory : directoryFor memory.pageDirectory address memory ≠ 0 := by
    intro hzero
    rw [directoryEntryOf, if_pos hzero] at hpresent
    cases hpresent
  have hentry := directoryEntryOf_eq hdirectory
  have hensured := ensured_ensurePageTable h address flags
  generalize ensurePageTable address flags memory = result at hensured ⊢
  obtain ⟨table, middle⟩ := result
  dsimp only at hensured ⊢
  cases hensured with
  | failed => exact ⟨rfl, rfl, rfl⟩
  | directoryOnly _ _ _ hnone => exact absurd hnone hdirectory
  | found directory heq =>
    subst heq
    split_ifs with huser
    · -- the checks leave a process and an address of the user, and there the bit is set already
      have hallowed : ¬userMappingRefused address flags memory := fun hrefused ↦
        haccepted (.inr (.inr (.inr (.inr (.inr (.inr (.inr (.inl hrefused))))))))
      simp only [userMappingRefused, not_and, not_or, UInt32.not_lt, UInt32.not_le] at hallowed
      obtain ⟨hprivate, hregion⟩ := hallowed huser
      exact ⟨Ram.toPagingState_setEntry _ _ _, frames_mark_user h hprivate hregion hpresent,
        Ram.pmm_setEntry _ _ _⟩
    · exact ⟨rfl, rfl, rfl⟩
  | made directory _ _ heq _ habsent =>
    rw [← heq, ← hentry, hpresent] at habsent
    cases habsent
  | madeBoth _ _ _ _ _ hnone => exact absurd hnone hdirectory

theorem translate_eq_of_frames {after : Ram} (hstate : after.toPagingState = memory.toPagingState)
    (hframes : after.frames = memory.frames) (root place : UInt32) :
    translate root place after = translate root place memory := by
  have hentry : ∀ frame index, after.entry frame index = memory.entry frame index := by
    intro frame index
    rw [Ram.entry, Ram.entry, hframes, hstate]
  unfold translate leafOf directoryEntryOf getPageTableFor directoryFor paePageDirectoryFor
  simp only [hentry, hstate]

/-- After the checks, the call is the search for a table, the look at the entry and the claim. -/
theorem pagingMapPage_accepted (haccepted : MapAccepted address physical flags memory) :
    pagingMapPage address physical flags memory =
      (let (table, middle) := ensurePageTable address flags memory
      let index := middle.mode.tableIndex address
      if table = 0 then (false, middle)
      else if (middle.entry table index).present then (false, middle)
      else
        let (claimed, pmm) :=
          if flags &&& pageFlagUser ≠ 0 then pmmClaimUserBlock physical middle.pmm
          else (true, middle.pmm)
        if claimed then
          let stored := { middle with pmm := pmm }.setEntry table index
            (middle.mode.leaf middle.paeNxEnabled physical flags)
          (true, stored.invalidatePage address)
        else (false, middle)) := if_neg haccepted

theorem MapAccepted.owned (haccepted : MapAccepted address physical flags memory)
    (huser : flags &&& pageFlagUser ≠ 0) : memory.pmm.Owned physical := by
  by_contra hnot
  refine haccepted (.inr (.inr (.inr (.inr (.inr (.inr (.inl ⟨huser, ?_⟩)))))))
  rw [← Bool.not_eq_true, pmmBlockIsUserOwned_iff]
  exact hnot

theorem pmmClaimUserBlock_of_mapped {pmm : Pmm} (hmapped : pmm.Mapped physical) :
    (pmmClaimUserBlock physical pmm).1 = false := by
  rcases pmmClaimUserBlock_cases physical pmm with hclaim | ⟨other, -, -, hnot, -⟩
  · rw [hclaim]
  · exact absurd hmapped hnot

/-- A table that is made and not used stays. -/
theorem LeavesTable.not_failsClean (h : Isolated memory role)
    (hleaves : LeavesTable address physical flags memory) :
    (pagingMapPage address physical flags memory).1 = false ∧
      (pagingMapPage address physical flags memory).2.pmm ≠ memory.pmm := by
  obtain ⟨haccepted, hnone, hroom, hreason⟩ := hleaves
  rw [pagingMapPage_accepted haccepted]
  have hensured := ensured_ensurePageTable h address flags
  generalize ensurePageTable address flags memory = result at hensured ⊢
  obtain ⟨table, middle⟩ := result
  dsimp only at hensured ⊢
  have hmade := (hensured.tableMade h hnone).resolve_left fun hfull ↦ by omega
  by_cases hzero : table = 0
  · rw [if_pos hzero]
    exact ⟨rfl, hmade.changed⟩
  rw [if_neg hzero, if_neg (by rw [hmade.empty hzero]; simp)]
  obtain ⟨huser, hmapped⟩ := hreason.resolve_right fun hlast ↦ hzero (hmade.zero_iff.2 hlast)
  rw [if_pos huser, pmmClaimUserBlock_of_mapped ((hmade.mapped physical).2 hmapped)]
  exact ⟨rfl, hmade.changed⟩

/-- A call that fails otherwise has changed nothing. -/
theorem failsClean_of_not_leavesTable (h : Isolated memory role)
    (hkeeps : ¬LeavesTable address physical flags memory) :
    FailsClean address physical flags memory := by
  intro hfailed
  have hsame : ∀ after : Ram, after.toPagingState = memory.toPagingState →
      after.frames = memory.frames → after.pmm = memory.pmm →
      after.toPagingState = memory.toPagingState ∧
      (∀ root, memory.IsRoot root → ∀ place,
        translate root place after = translate root place memory) ∧ after.pmm = memory.pmm :=
    fun after hstate hframes hpmm ↦
      ⟨hstate, fun root _ place ↦ translate_eq_of_frames hstate hframes root place, hpmm⟩
  by_cases haccepted : MapAccepted address physical flags memory
  swap
  · have hrefused : pagingMapPage address physical flags memory = (false, memory) :=
      if_pos (not_not.1 haccepted)
    rw [hrefused]
    exact hsame memory rfl rfl rfl
  by_cases hnone : tableOf memory.pageDirectory address memory = none
  · rw [pagingMapPage_accepted haccepted] at hfailed ⊢
    have hensured := ensured_ensurePageTable h address flags
    generalize ensurePageTable address flags memory = result at hensured hfailed ⊢
    obtain ⟨table, middle⟩ := result
    dsimp only at hensured hfailed ⊢
    rcases hensured.tableMade h hnone with ⟨rfl, rfl, -⟩ | hmade
    · exact hsame middle rfl rfl rfl
    · -- with a new table and a frame that is free, the call does not fail
      have hne : table ≠ 0 := fun hzero ↦
        hkeeps ⟨haccepted, hnone, hmade.room, .inr (hmade.zero_iff.1 hzero)⟩
      rw [if_neg hne, if_neg (by rw [hmade.empty hne]; simp)] at hfailed
      by_cases huser : flags &&& pageFlagUser ≠ 0
      · have hfree : ¬middle.pmm.Mapped physical := fun hmapped ↦
          hkeeps ⟨haccepted, hnone, hmade.room, .inl ⟨huser, (hmade.mapped physical).1 hmapped⟩⟩
        rw [if_pos huser, if_pos (pmmClaimUserBlock_of_not_mapped
          ((hmade.owned physical).2 (haccepted.owned huser)) hfree)] at hfailed
        cases hfailed
      · rw [if_neg huser] at hfailed
        cases hfailed
  · obtain ⟨hstate, hframes, hpmm⟩ := ensurePageTable_present h haccepted hnone
    rcases pagingMapPage_cases address physical flags memory with
      hrefused | ⟨-, table, middle, hensure, ⟨hresult, -⟩ | ⟨htrue, -⟩⟩
    · rw [hrefused]
      exact hsame memory rfl rfl rfl
    · rw [hensure] at hstate hframes hpmm
      rw [hresult]
      exact hsame middle hstate hframes hpmm
    · rw [htrue] at hfailed
      cases hfailed

/-- A failed call changes nothing, except where it made a table that it then does not use. -/
theorem map_failure_clean_iff (h : Isolated memory role) (address physical flags : UInt32) :
    FailsClean address physical flags memory ↔ ¬LeavesTable address physical flags memory := by
  refine ⟨fun hclean hleaves ↦ ?_, failsClean_of_not_leavesTable h⟩
  obtain ⟨hfailed, hchanged⟩ := hleaves.not_failsClean h
  exact hchanged (hclean hfailed).2.2

end

/-- A process of the small machine asks for a frame that it has mapped already, at an address that
has no table. -/
theorem leavesTable_smallProcess :
    LeavesTable 0x00C00000 0x00400000 6 (smallProcess ⟨false, false⟩ 6) := by
  have hrefused : ∀ memory : Ram, memory.pageDirectory ≠ 0 → memory.pageDirectory ≠
      memory.kernelPageDirectory → pmmBlockIsUserOwned 0x00400000 memory.pmm = true →
      usesSharedKernelTable 0x00C00000 memory = false →
      MapAccepted 0x00C00000 0x00400000 6 memory := by
    intro memory hzero hprivate howned hshared
    simp only [MapAccepted, userMappingRefused, not_or, not_and, hshared, howned]
    exact ⟨hzero, by decide, by decide, by decide, by decide, by decide, by decide,
      fun _ ↦ ⟨hprivate, by decide, by decide⟩, by decide⟩
  refine ⟨hrefused _ ?_ ?_ ?_ ?_, ?_, ?_, .inl ⟨?_, ?_⟩⟩ <;> decide +kernel

/-- Such a call leaves a table behind. -/
theorem map_failure_clean_iff_leaves : ∃ pmm memory frame,
    pmmInit smallMachine 0x10000 0x80000 = some pmm ∧
      LeavesTable 0x00C00000 frame 6 memory ∧ ¬FailsClean 0x00C00000 frame 6 memory := by
  obtain ⟨role, h⟩ := isolated_smallProcess ⟨false, false⟩ (by decide : (6 : UInt32) &&& 4 ≠ 0)
  exact ⟨smallPmm, _, _, pmmInit_smallMachine, leavesTable_smallProcess, fun hclean ↦
    (map_failure_clean_iff h 0x00C00000 0x00400000 6).1 hclean leavesTable_smallProcess⟩

/-- In a run of the kernel, a call fails and a frame is gone. -/
theorem failed_map_takes_frame : ∃ pmm memory frame,
    pmmInit smallMachine 0x10000 0x80000 = some pmm ∧
      Reaches Call.Allowed (pagingInit ⟨false, false⟩ smallImage false pmm fun _ _ ↦ 0).2 memory ∧
      (pagingMapPage 0x00C00000 frame 6 memory).1 = false ∧
      (pagingMapPage 0x00C00000 frame 6 memory).2.pmm ≠ memory.pmm := by
  obtain ⟨role, h⟩ := isolated_smallProcess ⟨false, false⟩ (by decide : (6 : UInt32) &&& 4 ≠ 0)
  exact ⟨smallPmm, _, _, pmmInit_smallMachine, reaches_smallProcess _ (by decide),
    leavesTable_smallProcess.not_failsClean h⟩

end EfesOS.Memory
