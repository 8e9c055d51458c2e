import EfesOS.Memory.KernelHalf

/-!
# Address spaces as maps

What the paging calls are for: each address space is a map from the pages of its region to entries,
and a call changes at most one value of one of these maps, that of the page it was asked about in
the directory in use, as it tells its caller (`Call.Changes`). Outside its region a space has the
kernel's pages, as far as it has the kernel's tables. `paging_refines_maps`: in every state of a
run, the tables that a call leaves denote the maps from before with that change made, and a new
space has the kernel's pages and no others.
-/

set_option autoImplicit false

namespace EfesOS.Memory

open Isolated

/-- The call refuses, or is none that changes a mapping. -/
def Call.ChangesNothing (memory : Ram) : Call → Prop
  | map address physical flags => (pagingMapPage address physical flags memory).1 = false
  | protect address flags => (pagingProtectPage address flags memory).1 = false
  | unmap address => (pagingUnmapPage address memory).1 = 0
  | _ => True

/-- The page whose mapping a call changes in the directory in use, with what it becomes. -/
inductive Call.Changes (memory : Ram) : Call → Option (UInt32 × Option Entry) → Prop where
  | mapped (address physical flags : UInt32)
      (hdone : (pagingMapPage address physical flags memory).1 = true)
      (hfree : mappingOf memory.pageDirectory address memory = none) :
      Changes memory (.map address physical flags)
        (some (address, some (memory.mode.leaf memory.paeNxEnabled physical flags)))
  | changed (address flags : UInt32) (entry : Entry)
      (hdone : (pagingProtectPage address flags memory).1 = true)
      (hmapped : mappingOf memory.pageDirectory address memory = some entry) :
      Changes memory (.protect address flags)
        (some (address, some (memory.mode.leaf memory.paeNxEnabled entry.physical flags)))
  | unmapped (address : UInt32) (entry : Entry)
      (hmapped : mappingOf memory.pageDirectory address memory = some entry)
      (hresult : (pagingUnmapPage address memory).1 = entry.physical) :
      Changes memory (.unmap address) (some (address, none))
  | unchanged (call : Call) (hnothing : call.ChangesNothing memory) : Changes memory call none

/-- The map of a space once a page of the directory in use has changed. -/
def changedMap (memory : Ram) (change : Option (UInt32 × Option Entry)) (root address : UInt32) :
    Option Entry :=
  match change with
  | none => mappingOf root address memory
  | some (page, entry) =>
    if root = memory.pageDirectory ∧ memory.mode.path address = memory.mode.path page then entry
    else mappingOf root address memory

/-- The maps after a call are those from before with what the call changes. Of the kernel's pages a
space has those in the tables that it shares, before the call and after it, and a space that was not
there has all of them and no user page. -/
structure RefinesMaps (call : Call) (memory : Ram) : Prop where
  maps : ∃ change, call.Changes memory change ∧ ∀ root address, memory.IsRoot root →
    OwnRegion memory.toPagingState root address →
    mappingOf root address (call.run memory) = changedMap memory change root address
  shared : ∀ root ∈ memory.addressSpaces, ∀ address, OutsideUser address →
    ∀ other ∈ [memory, call.run memory], mappingOf root address other =
      if tableOf root address memory = none then none
      else mappingOf memory.kernelPageDirectory address other
  fresh : ∀ root ∈ (call.run memory).addressSpaces, root ∉ memory.addressSpaces → ∀ address,
    mappingOf root address (call.run memory) =
        mappingOf memory.kernelPageDirectory address (call.run memory) ∧
      (¬OutsideUser address → mappingOf root address (call.run memory) = none)

section Call

variable {memory : Ram} {role : UInt32 → Option Place} {call : Call} (h : Isolated memory role)
  (hstale : NoStale memory) (hallowed : call.Allowed memory)
include h hstale hallowed

theorem Call.maps :
    ∃ change, call.Changes memory change ∧ ∀ root address, memory.IsRoot root →
      OwnRegion memory.toPagingState root address →
      mappingOf root address (call.run memory) = changedMap memory change root address := by
  cases call with
  | create | switch | destroy | alloc | allocBelow | allocUser | free | write =>
    exact ⟨none, .unchanged _ trivial, fun _ _ hroot ↦ Call.mappingOf_run h hallowed rfl hroot⟩
  | map page physical flags =>
    -- the tables made on the way change no map, and then the entry is written
    obtain ⟨middle, roleMiddle, hreshapes, -, ⟨hfailed, -⟩ | ⟨hdone, -, -, hfree, -, hwrites⟩⟩ :=
      pagingMapPage_spec h page physical flags hallowed
    · refine ⟨none, .unchanged _ (by rw [ChangesNothing, hfailed]), fun root address ↦ ?_⟩
      rw [Call.run, hfailed]
      exact hreshapes.mappings root address
    · refine ⟨_, .mapped page physical flags hdone hfree, fun root address hroot hregion ↦ ?_⟩
      rw [← hreshapes.state] at hroot hregion
      have hwritten := hwrites.mappingOf_eq hroot hregion
      rw [hreshapes.state] at hroot hregion hwritten
      rw [hreshapes.mappings root address hroot hregion] at hwritten
      exact hwritten
  | protect page flags =>
    rcases pagingProtectPage_spec h page flags with hfailed | ⟨hdone, hchecked, -, -, -, hwrites⟩
    · refine ⟨none, .unchanged _ (by rw [ChangesNothing, hfailed]), fun _ _ _ _ ↦ ?_⟩
      rw [Call.run, hfailed, changedMap]
    · exact ⟨_, .changed page flags _ hdone (if_pos hchecked.present), fun _ _ ↦
        (hwrites (hstale.ownRegion h hchecked)).mappingOf_eq⟩
  | unmap page =>
    -- the entry is cleared, and then the empty table given back
    rcases pagingUnmapPage_spec h page hallowed with
      ⟨hfailed, -⟩ | ⟨entry, middle, roleAfter, hmapped, hresult, -, hwrites, hreshapes, -⟩
    · refine ⟨none, .unchanged _ (by rw [ChangesNothing, hfailed]), fun _ _ _ _ ↦ ?_⟩
      rw [Call.run, hfailed, changedMap]
    · refine ⟨_, .unmapped page entry hmapped hresult, fun root address hroot hregion ↦ ?_⟩
      have hgone := hreshapes.mappings root address
      rw [hwrites.state] at hgone
      exact (hgone hroot hregion).trans (hwrites.mappingOf_eq hroot hregion)

theorem Call.refinesMaps (hfrees : FreesNoTable call memory) : RefinesMaps call memory := by
  refine ⟨Call.maps h hstale hallowed, fun root hroot address houtside ↦ ?_,
    fun root hroot hnew address ↦ ?_⟩
  · have hafter := call.tables_registered h hstale hallowed hroot houtside
    simp only [List.forall_mem_cons, List.not_mem_nil, false_implies, implies_true, and_true]
    split_ifs with hnone
    · exact ⟨mappingOf_eq_none hnone, mappingOf_eq_none (hafter.trans hnone)⟩
    · obtain ⟨entry, hentry⟩ := Option.ne_none_iff_exists'.1 hnone
      have hkernel := hstale root hroot address houtside entry hentry
      have hkept := call.tables_kernel h hstale hallowed (List.ne_nil_of_mem hroot) hfrees houtside
        (.inl (by simp [hkernel]))
      rw [hkernel] at hkept
      rw [hentry] at hafter
      exact ⟨mappingOf_eq_of_tableOf (hentry.trans hkernel.symm),
        mappingOf_eq_of_tableOf (hafter.trans hkept.symm)⟩
  · obtain ⟨directory, spaces, hstate, hspaces⟩ := call.registry h hallowed
    obtain ⟨roleAfter, hisolated⟩ := call.isolated h hallowed
    rw [hstate] at hroot
    have hcopied := (hspaces root hroot).resolve_left hnew address
    refine ⟨mappingOf_eq_of_tableOf hcopied, fun hinside ↦ ?_⟩
    have hkernel := hisolated.kernel_tableOf (not_outsideUser_iff.1 hinside)
    rw [hstate] at hkernel
    exact mappingOf_eq_none (hcopied.trans hkernel)

end Call

theorem paging_refines_maps {features : CpuFeatures} {image : KernelImage} {fontAvailable : Bool}
    {pmm : Pmm} {frames : UInt32 → Page} {memory : Ram} (hmapped : ∀ frame, ¬pmm.Mapped frame)
    (hinit : (pagingInit features image fontAvailable pmm frames).1 = true)
    (hrun : Reaches (fun call before ↦ call.Allowed before ∧ FreesNoTable call before)
      (pagingInit features image fontAvailable pmm frames).2 memory)
    (call : Call) (hallowed : call.Allowed memory) (hfrees : FreesNoTable call memory) :
    RefinesMaps call memory := by
  have hbooted := pagingInit_boots hmapped hinit
  obtain ⟨⟨role, h⟩, hstale⟩ := hrun.invariant
    (P := fun memory ↦ (∃ role, Isolated memory role) ∧ NoStale memory)
    ⟨hbooted.isolated, fun root hroot ↦ by rw [hbooted.spaces] at hroot; cases hroot⟩ (by
      rintro before call ⟨⟨role, h⟩, hstale⟩ hcall
      exact ⟨call.isolated h hcall.1, call.noStale h hstale hcall.1 hcall.2⟩)
  exact Call.refinesMaps h hstale hallowed hfrees

/-- A page that the kernel maps while there is a space. -/
theorem paging_refines_maps_second : ∃ pmm memory,
    pmmInit smallMachine 0x10000 0x80000 = some pmm ∧ memory.addressSpaces ≠ [] ∧
      RefinesMaps (.map 0xC0000000 0x00100000 pageFlagWritable) memory := by
  refine ⟨smallPmm, Call.create.run (smallStart ⟨true, false⟩), pmmInit_smallMachine,
    by decide +kernel, paging_refines_maps not_mapped_smallPmm (pagingInit_small_ok ⟨true, false⟩)
      ?_ _ (fun _ _ ↦ ⟨by decide +kernel, by decide⟩) (by simp [FreesNoTable])⟩
  rw [pagingInit_small]
  exact Reaches.start.step .create ⟨trivial, by simp [FreesNoTable]⟩

end EfesOS.Memory
