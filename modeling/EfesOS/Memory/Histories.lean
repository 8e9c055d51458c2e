import EfesOS.Memory.AllocatorRuns
import EfesOS.Memory.Creation
import EfesOS.Memory.KernelImage

/-!
# Runs of the paging code

A run starts where `paging_init` leaves memory and goes on with calls of the paging code and of the
allocator, with any arguments, and with stores to memory (`Call`). The callers keep to what the
kernel does: mappings that are not the user's are made and removed above the user addresses with the
kernel's directory in use, and page tables are neither freed nor stored to behind the paging code's
back (`Call.Allowed`).

Every state of such a run is isolated (`Reaches.isolated`), so what a process can reach is its own:
`user_memory_isolation`.
-/

set_option autoImplicit false

namespace EfesOS.Memory

open EfesOS.Foundation.PageTree

/-- A frame that holds a page table or directory of some space, not counting the copies of the
kernel's entries that the spaces of processes have. -/
def IsPageTable (memory : Ram) (frame : UInt32) : Prop :=
  frame ≠ 0 ∧ ∃ root, memory.IsRoot root ∧ (frame = root ∨ ∃ address,
    frame = directoryFor root address memory ∨
    Isolated.OwnRegion memory.toPagingState root address ∧
      frame = getPageTableFor root address memory)

/-- A call of the paging code or of the allocator, or a store to memory by anyone else. -/
inductive Call where
  | create
  | switch (directory : UInt32)
  | destroy (directory : UInt32)
  | map (address physical flags : UInt32)
  | protect (address flags : UInt32)
  | unmap (address : UInt32)
  | alloc
  | allocBelow (limit : UInt32)
  | allocUser
  | free (frame : UInt32)
  | write (frame : UInt32) (page : Page)

namespace Call

/-- Memory after a call. -/
def run : Call → Ram → Ram
  | create, memory => (pagingCreateAddressSpace memory).2
  | switch directory, memory => (pagingSwitchAddressSpace directory memory).2
  | destroy directory, memory => (pagingDestroyAddressSpace directory memory).2
  | map address physical flags, memory => (pagingMapPage address physical flags memory).2
  | protect address flags, memory => (pagingProtectPage address flags memory).2
  | unmap address, memory => (pagingUnmapPage address memory).2
  | alloc, memory => memory.onPmm fun pmm ↦ (pmmAllocBlock pmm).2
  | allocBelow limit, memory => memory.onPmm fun pmm ↦ (pmmAllocBlockBelow limit pmm).2
  | allocUser, memory => memory.onPmm fun pmm ↦ (pmmAllocUserBlock pmm).2
  | free frame, memory => memory.onPmm (pmmFreeBlock frame)
  | write frame page, memory => memory.store frame page

/-- What the callers in the kernel keep to. -/
def Allowed : Call → Ram → Prop
  | map address physical flags, memory =>
    (pagingMapPage address physical flags memory).1 = true → MapsInOwnHalf address flags memory
  | unmap address, memory => UnmapsInOwnHalf address memory
  | free frame, memory => ¬IsPageTable memory frame
  | write frame _, memory => ¬IsPageTable memory frame
  | _, _ => True

end Call

/-- The states of the runs whose steps a condition allows. -/
inductive Reaches (allowed : Call → Ram → Prop) (start : Ram) : Ram → Prop where
  | start : Reaches allowed start start
  | step {memory : Ram} (hrun : Reaches allowed start memory) (call : Call)
      (hallowed : allowed call memory) : Reaches allowed start (call.run memory)

variable {start memory : Ram}

/-- What every allowed step keeps holds in every state of a run. -/
theorem Reaches.invariant {allowed : Call → Ram → Prop} {P : Ram → Prop}
    (hrun : Reaches allowed start memory) (hstart : P start)
    (hstep : ∀ before call, P before → allowed call before → P (call.run before)) : P memory := by
  induction hrun with
  | start => exact hstart
  | step _ call hallowed ih => exact hstep _ call ih hallowed

theorem Reaches.mono {allowed more : Call → Ram → Prop} (hrun : Reaches allowed start memory)
    (hmore : ∀ call before, allowed call before →
      more call before) : Reaches more start memory := by
  induction hrun with
  | start => exact .start
  | step _ call hallowed ih => exact .step ih call (hmore call _ hallowed)

/-! ### The frames of page tables -/

/-- Every way to a table is the way of an address. -/
theorem Mode.exists_tablePath (mode : Mode) {path : List ℕ} {slot : ℕ}
    (hlevel : mode.level path = .directory) (hslot : slot < mode.slots)
    (hupper : ∀ upper ∈ path, upper < paePdpEntries) :
    ∃ address, mode.tablePath address = slot :: path := by
  rcases mode_of_level_directory hlevel with ⟨rfl, rfl⟩ | ⟨rfl, upper, rfl⟩
  · have hbound : slot < 1024 := hslot
    refine ⟨UInt32.ofNat (slot * 4194304), ?_⟩
    have hnat : (UInt32.ofNat (slot * 4194304)).toNat = slot * 4194304 := by
      rw [UInt32.toNat_ofNat', Nat.mod_eq_of_lt (by omega)]
    rw [Mode.tablePath, Mode.directoryIndex_legacy, hnat, Nat.mul_div_cancel _ (by decide)]
    rfl
  · have hbound : slot < 512 := hslot
    have hfour : upper < 4 := hupper upper (List.mem_singleton_self upper)
    refine ⟨UInt32.ofNat (upper * 1073741824 + slot * 2097152), ?_⟩
    have hnat : (UInt32.ofNat (upper * 1073741824 + slot * 2097152)).toNat =
        upper * 1073741824 + slot * 2097152 := by
      rw [UInt32.toNat_ofNat', Nat.mod_eq_of_lt (by omega)]
    simp only [Mode.tablePath, Mode.directoryIndex_pae, Mode.directoryPath, pdptIndex_eq, hnat]
    congr 1
    · omega
    · congr 1
      omega

/-- The allocator hands out at most one frame. -/
def Pmm.Serves (pmm other : Pmm) : Prop := other = pmm ∨ ∃ frame owned, pmm.Takes frame owned other

theorem pmmAllocBlockBelow_serves (limit : UInt32) (pmm : Pmm) :
    pmm.Serves (pmmAllocBlockBelow limit pmm).2 := by
  rcases pmmAllocBlockBelow_cases limit pmm with heq | ⟨frame, other, heq, htakes, -⟩
  · exact .inl (by rw [heq])
  · exact .inr ⟨frame, false, by rw [heq]; exact htakes⟩

theorem pmmAllocUserBlock_serves (pmm : Pmm) : pmm.Serves (pmmAllocUserBlock pmm).2 := by
  rcases pmmAllocUserBlock_cases pmm with heq | ⟨frame, other, heq, htakes⟩
  · exact .inl (by rw [heq])
  · exact .inr ⟨frame, true, by rw [heq]; exact htakes⟩

namespace Isolated

variable {memory : Ram} {role : UInt32 → Option Place} {frame root : UInt32}

section

variable (h : Isolated memory role)
include h

/-- The slots on the way to a directory are slots of the root. -/
theorem upper_lt {path : List ℕ} (hrole : role frame = some ⟨root, path⟩)
    (hlevel : memory.mode.level path = .directory) : ∀ upper ∈ path, upper < paePdpEntries := by
  rcases mode_of_level_directory hlevel with ⟨-, rfl⟩ | ⟨hmode, upper, rfl⟩
  · exact fun _ hmem ↦ absurd hmem List.not_mem_nil
  · obtain ⟨-, -, hlinks, -⟩ := h.typed.up frame ⟨root, []⟩ upper hrole
    simp only [discipline, hmode] at hlinks
    intro other hother
    rw [List.mem_singleton.1 hother]
    exact hlinks

theorem exists_directoryPath {path : List ℕ} (hrole : role frame = some ⟨root, path⟩)
    (hlevel : memory.mode.level path = .directory) :
    ∃ address, memory.mode.directoryPath address = path := by
  obtain ⟨address, haddress⟩ := memory.mode.exists_tablePath hlevel
    (show 0 < memory.mode.slots by cases memory.mode <;> decide) (h.upper_lt hrole hlevel)
  injection haddress with _ hpath
  exact ⟨address, hpath⟩

/-- A table of the tree of a space is that of an address of its own region. -/
theorem exists_tablePath {path : List ℕ} (hrole : role frame = some ⟨root, path⟩)
    (hlevel : memory.mode.level path = .table) :
    ∃ address, memory.mode.tablePath address = path ∧
      OwnRegion memory.toPagingState root address := by
  obtain ⟨slot, rest, rfl, hrest⟩ := exists_of_level_table hlevel
  obtain ⟨parent, hparent, hlinks, -⟩ := h.typed.up frame ⟨root, rest⟩ slot hrole
  simp only [discipline, hrest] at hlinks
  obtain ⟨address, haddress⟩ := memory.mode.exists_tablePath hrest hlinks.1
    (h.upper_lt hparent hrest)
  refine ⟨address, haddress, hlinks.2.imp_right fun hregion ↦ ?_⟩
  injection haddress with hslot hpath
  rw [← hslot, ← hpath] at hregion
  exact (memory.mode.userRegion_iff address).1 hregion

/-- What has a place above the pages is a page table. -/
theorem isPageTable {place : Place} (hrole : role frame = some place)
    (hlevel : memory.mode.level place.path ≠ .page) : IsPageTable memory frame := by
  have hroot := h.typed.root_mem hrole
  refine ⟨(h.held frame place hrole).ne_zero, place.root, hroot, ?_⟩
  obtain ⟨root, path⟩ := place
  cases hkind : memory.mode.level path with
  | root =>
    obtain ⟨-, rfl⟩ := mode_of_level_root hkind
    exact .inl (h.typed.top_inv frame root hrole).1
  | directory =>
    obtain ⟨address, rfl⟩ := h.exists_directoryPath hrole hkind
    exact .inr ⟨address, .inl (h.directoryFor_eq hroot hrole).symm⟩
  | table =>
    obtain ⟨address, rfl, hregion⟩ := h.exists_tablePath hrole hkind
    refine .inr ⟨address, .inr ⟨hregion, ?_⟩⟩
    rcases h.getPageTableFor_cases hroot hregion with ⟨-, hnone⟩ | ⟨-, hsome⟩
    · exact absurd hrole (hnone frame)
    · exact h.typed.injective hrole hsome
  | page => exact absurd hkind hlevel

/-- A frame goes to someone else. -/
theorem serve {pmm : Pmm} (hserves : memory.pmm.Serves pmm) :
    Isolated { memory with pmm := pmm } role := by
  rcases hserves with rfl | ⟨frame, owned, htakes⟩
  · exact h
  refine h.elsewhere rfl (fun _ _ _ _ ↦ rfl) ?_ ?_ htakes.mapped
  · exact fun other place hrole ↦ (htakes.held other).2 (.inl (h.held other place hrole))
  · intro other hheld howned hafter
    rcases (htakes.owned other).1 hafter with hbefore | ⟨rfl, -⟩
    · exact howned hbefore
    · exact htakes.free hheld

/-- A frame comes back from someone, and it is no page table. -/
theorem giveBack (htable : ¬IsPageTable memory frame) :
    Isolated (memory.onPmm (pmmFreeBlock frame)) role := by
  rcases pmmFreeBlock_cases frame memory.pmm with hsame | ⟨-, hmapped, hgives⟩
  · rw [Ram.onPmm, hsame]
    exact h
  refine h.elsewhere rfl (fun _ _ _ _ ↦ rfl) ?_ ?_ hgives.mapped
  · intro other place hrole
    refine (hgives.held other).2 ⟨h.held other place hrole, ?_⟩
    rintro rfl
    by_cases hpage : memory.mode.level place.path = .page
    · exact hmapped (h.page other place hrole hpage)
    · exact htable (h.isPageTable hrole hpage)
  · exact fun other _ howned hafter ↦ howned ((hgives.owned other).1 hafter).1

theorem overwrite (page : Page) (htable : ¬IsPageTable memory frame) :
    Isolated (memory.store frame page) role := by
  refine h.elsewhere rfl (fun other place hrole hlevel ↦ ?_) h.held (fun _ _ howned ↦ howned)
    fun _ ↦ Iff.rfl
  refine Function.update_of_ne ?_ _ _
  rintro rfl
  exact htable (h.isPageTable hrole hlevel)

end

end Isolated

variable {root : UInt32} {role : UInt32 → Option Place}

/-- Every allowed call keeps the trees isolated. -/
theorem Call.isolated (h : Isolated memory role) (call : Call) (hallowed : call.Allowed memory) :
    ∃ roleAfter, Isolated (call.run memory) roleAfter := by
  cases call with
  | create =>
    rcases pagingCreateAddressSpace_spec h with ⟨-, hunbuilt⟩ |
      ⟨root, after, roleAfter, heq, -, hcreates⟩
    · refine ⟨role, h.elsewhere hunbuilt.state ?_ ?_ ?_ ?_⟩
      · exact fun frame place hrole _ ↦ hunbuilt.frames frame (h.held frame place hrole)
      all_goals
        simp only [Call.run, hunbuilt.pmm]
      · exact h.held
      · exact fun _ _ howned ↦ howned
      · exact fun _ ↦ trivial
    · obtain ⟨built, hbuilds, hafter⟩ := hcreates.built
      refine ⟨roleAfter, ?_⟩
      rw [Call.run, heq, hafter]
      exact hbuilds.isolated
  | switch directory =>
    rcases pagingSwitchAddressSpace_spec h directory with ⟨heq, -⟩ | ⟨-, hroot, hswitches⟩
    · rw [Call.run, heq]
      exact ⟨role, h⟩
    · exact ⟨role, hswitches.isolated h hroot⟩
  | destroy directory =>
    rcases pagingDestroyAddressSpace_spec h directory with heq | ⟨-, hdestroys⟩
    · rw [Call.run, heq]
      exact ⟨role, h⟩
    · exact ⟨_, hdestroys.isolated⟩
  | map address physical flags =>
    obtain ⟨middle, roleMiddle, hreshapes, -, ⟨hfailed, -⟩ | ⟨-, -, -, -, -, hwrites⟩⟩ :=
      pagingMapPage_spec h address physical flags hallowed
    · rw [Call.run, hfailed]
      exact ⟨roleMiddle, hreshapes.isolated⟩
    · exact ⟨_, hwrites.isolated⟩
  | protect address flags =>
    rcases pagingProtectPage_spec h address flags with heq | ⟨-, -, -, -, hisolated, -⟩
    · rw [Call.run, heq]
      exact ⟨role, h⟩
    · exact ⟨role, hisolated⟩
  | unmap address =>
    rcases pagingUnmapPage_spec h address hallowed with
      ⟨heq, -⟩ | ⟨entry, middle, roleAfter, -, -, -, -, hreshapes, -⟩
    · rw [Call.run, heq]
      exact ⟨role, h⟩
    · exact ⟨roleAfter, hreshapes.isolated⟩
  | alloc => exact ⟨role, h.serve (pmmAllocBlockBelow_serves _ _)⟩
  | allocBelow limit => exact ⟨role, h.serve (pmmAllocBlockBelow_serves limit _)⟩
  | allocUser => exact ⟨role, h.serve (pmmAllocUserBlock_serves _)⟩
  | free frame => exact ⟨role, h.giveBack hallowed⟩
  | write frame page => exact ⟨role, h.overwrite page hallowed⟩

/-- Every state of a run is isolated. -/
theorem Reaches.isolated (hrun : Reaches Call.Allowed start memory)
    (hstart : ∃ role, Isolated start role) : ∃ role, Isolated memory role := by
  refine hrun.invariant (P := fun memory ↦ ∃ role, Isolated memory role) hstart ?_
  rintro before call ⟨role, h⟩ hallowed
  exact call.isolated h hallowed

/-- A call changes the directory in use and the registered spaces at most. It registers at most one
space, and that with the directory entries of the kernel. -/
theorem Call.registry (h : Isolated memory role) (call : Call) (hallowed : call.Allowed memory) :
    ∃ directory spaces, (call.run memory).toPagingState =
        { memory.toPagingState with pageDirectory := directory, addressSpaces := spaces } ∧
      ∀ root ∈ spaces, root ∈ memory.addressSpaces ∨ ∀ address,
        tableOf root address (call.run memory) =
          tableOf memory.kernelPageDirectory address (call.run memory) := by
  cases call with
  | create =>
    rcases pagingCreateAddressSpace_spec h with
      ⟨-, hunbuilt⟩ | ⟨fresh, after, roleAfter, heq, -, hcreates⟩
    · exact ⟨_, _, hunbuilt.state, fun _ ↦ .inl⟩
    · have htables := hcreates.tables
      obtain ⟨built, hbuilds, rfl⟩ := hcreates.built
      rw [Call.run, heq]
      have hkernel : ∀ address, tableOf memory.kernelPageDirectory address
          (built.registering fresh) =
          tableOf memory.kernelPageDirectory address memory := by
        refine tableOf_eq_of_frames h (.inl rfl) ?_ fun frame place hrole _ ↦ ?_
        · change built.mode = memory.mode
          rw [hbuilds.state]
        · exact hbuilds.frames frame (h.held frame place hrole)
      refine ⟨memory.pageDirectory, memory.addressSpaces ++ [fresh], ?_, fun root hroot ↦ ?_⟩
      · simp only [Ram.registering, hbuilds.state]
      · rw [List.mem_append, List.mem_singleton] at hroot
        refine hroot.imp_right ?_
        rintro rfl address
        rw [htables, hkernel]
  | switch directory =>
    rcases pagingSwitchAddressSpace_spec h directory with ⟨heq, -⟩ | ⟨-, -, hswitches⟩
    · exact ⟨_, _, by rw [Call.run, heq], fun _ ↦ .inl⟩
    · exact ⟨_, _, hswitches.state, fun _ ↦ .inl⟩
  | destroy directory =>
    rcases pagingDestroyAddressSpace_spec h directory with heq | ⟨-, hdestroys⟩
    · exact ⟨_, _, by rw [Call.run, heq], fun _ ↦ .inl⟩
    · exact ⟨_, _, hdestroys.state,
        fun _ hroot ↦ .inl ((mem_unregister h.spaces hdestroys.registered).1 hroot).1⟩
  | map place physical flags =>
    obtain ⟨middle, roleMiddle, hreshapes, -, ⟨hfailed, -⟩ | ⟨-, -, -, -, -, hwrites⟩⟩ :=
      pagingMapPage_spec h place physical flags hallowed
    · exact ⟨_, _, by rw [Call.run, hfailed, hreshapes.state], fun _ ↦ .inl⟩
    · exact ⟨_, _, by rw [Call.run, hwrites.state, hreshapes.state], fun _ ↦ .inl⟩
  | protect place flags =>
    rcases pagingProtectPage_spec h place flags with heq | ⟨-, -, hstate, -⟩
    · exact ⟨_, _, by rw [Call.run, heq], fun _ ↦ .inl⟩
    · exact ⟨_, _, hstate, fun _ ↦ .inl⟩
  | unmap place =>
    rcases pagingUnmapPage_spec h place hallowed with
      ⟨heq, -⟩ | ⟨leaf, middle, roleAfter, -, -, -, hwrites, hreshapes, -⟩
    · exact ⟨_, _, by rw [Call.run, heq], fun _ ↦ .inl⟩
    · exact ⟨_, _, by rw [Call.run, hreshapes.state, hwrites.state], fun _ ↦ .inl⟩
  | alloc | allocBelow | allocUser | free => exact ⟨_, _, by rw [Call.run, Ram.onPmm], fun _ ↦ .inl⟩
  | write frame page => exact ⟨_, _, rfl, fun _ ↦ .inl⟩

/-- The format of the tables is chosen once. -/
theorem Call.format (h : Isolated memory role) (call : Call) (hallowed : call.Allowed memory) :
    (call.run memory).mode = memory.mode ∧
      (call.run memory).paeNxEnabled = memory.paeNxEnabled := by
  obtain ⟨directory, spaces, hstate, -⟩ := call.registry h hallowed
  rw [hstate]
  exact ⟨rfl, rfl⟩

/-- The page whose mapping a call is asked to change. -/
def Call.page : Call → Option UInt32
  | map address _ _ => some address
  | protect address _ => some address
  | unmap address => some address
  | _ => none

section Kept

variable {call : Call} (h : Isolated memory role) (hallowed : call.Allowed memory)
  (hnone : call.page = none)
include h hallowed hnone

/-- A call about no page writes to no page table. -/
theorem Call.frames_run {frame : UInt32} {place : Place} (hrole : role frame = some place)
    (hlevel : memory.mode.level place.path ≠ .page) :
    (call.run memory).frames frame = memory.frames frame := by
  cases call with
  | map | protect | unmap => cases hnone
  | create =>
    have hheld := h.held frame place hrole
    rcases pagingCreateAddressSpace_spec h with
      ⟨-, hunbuilt⟩ | ⟨fresh, after, roleAfter, heq, -, hcreates⟩
    · exact hunbuilt.frames frame hheld
    · obtain ⟨built, hbuilds, rfl⟩ := hcreates.built
      rw [Call.run, heq]
      exact hbuilds.frames frame hheld
  | switch directory =>
    rcases pagingSwitchAddressSpace_spec h directory with ⟨heq, -⟩ | ⟨-, -, hswitches⟩
    · rw [Call.run, heq]
    · rw [Call.run, hswitches.frames]
  | destroy directory =>
    rcases pagingDestroyAddressSpace_spec h directory with heq | ⟨-, hdestroys⟩
    · rw [Call.run, heq]
    · rw [Call.run, hdestroys.frames]
  | alloc | allocBelow | allocUser | free => rfl
  | write target page =>
    refine Function.update_of_ne ?_ _ _
    rintro rfl
    exact hallowed (h.isPageTable hrole hlevel)

theorem Call.tableOf_run (hroot : memory.IsRoot root) (address : UInt32) :
    tableOf root address (call.run memory) = tableOf root address memory := by
  refine tableOf_eq_of_frames h hroot (call.format h hallowed).1 (fun _ _ hrole hlevel ↦ ?_) address
  refine Call.frames_run h hallowed hnone hrole ?_
  rcases hlevel with hlevel | hlevel <;> rw [hlevel] <;> simp

theorem Call.mappingOf_run (hroot : memory.IsRoot root) {address : UInt32}
    (hregion : Isolated.OwnRegion memory.toPagingState root address) :
    mappingOf root address (call.run memory) = mappingOf root address memory :=
  mappingOf_eq_of_frames h hroot (call.format h hallowed).1
    (fun _ _ ↦ Call.frames_run h hallowed hnone) hregion

end Kept

/-! ### What a process can reach -/

/-- A process can reach an address of its space: the user bit is set at every level. -/
def UserAccessible (root address : UInt32) (memory : Ram) : Prop :=
  (directoryEntryOf root address memory).present = true ∧
    (directoryEntryOf root address memory).user = true ∧
    (leafOf root address memory).present = true ∧ (leafOf root address memory).user = true
  deriving Decidable

/-- A page that a process can reach is in the tree at the place of its address. -/
theorem Isolated.userAccessible {address : UInt32} (h : Isolated memory role)
    (hroot : memory.IsRoot root) (haccess : UserAccessible root address memory) :
    root ≠ memory.kernelPageDirectory ∧ userMappingMin ≤ address ∧ address < userAddressLimit ∧
      role (leafOf root address memory).physical = some ⟨root, memory.mode.path address⟩ ∧
      ((leafOf root address memory).writable = true →
        ¬(leafOf root address memory).MayExecute memory.toPagingState) := by
  obtain ⟨hpresent, huser, hleaf, hleafUser⟩ := haccess
  obtain ⟨hprivate, hmin, hlimit⟩ := (h.user_directoryEntry hroot hpresent).1 huser
  obtain ⟨table, htable, hentry, -⟩ := (h.mappingOf_eq_some hroot (.inr ⟨hmin, hlimit⟩)).1
    (Entry.view_eq_some.2 ⟨rfl, hleaf⟩)
  have hlinks := Isolated.links_table (level_tablePath memory.mode address)
    (memory.mode.tableIndex_lt address) hprivate
  have hentryPresent : (memory.entry table (memory.mode.tableIndex address)).present = true := by
    rw [hentry]
    exact hleaf
  have hdown := h.typed.down _ _ _ htable hlinks hentryPresent
  have hadmits := h.typed.admits _ _ _ htable hentryPresent
  rw [hentry] at hdown hadmits
  simp only [discipline, level_tablePath] at hadmits
  exact ⟨hprivate, hmin, hlimit, hdown, (hadmits (memory.mode.tableIndex_lt address)).2 hleafUser⟩

/-- What processes can reach is theirs: above the kernel's low memory and below its half, in frames
of processes that are marked as mapped, each of them at one place of one space, and never both to be
written and to be run. -/
structure UserIsolation (memory : Ram) : Prop where
  region : ∀ root address, memory.IsRoot root → UserAccessible root address memory →
    0x00400000 ≤ address ∧ address < 0xC0000000
  frame : ∀ root address, memory.IsRoot root → UserAccessible root address memory →
    pmmBlockIsUserOwned (leafOf root address memory).physical memory.pmm = true ∧
      pmmUserBlockIsMapped (leafOf root address memory).physical memory.pmm = true
  unshared : ∀ root address other place, memory.IsRoot root → memory.IsRoot other →
    UserAccessible root address memory → UserAccessible other place memory →
    (leafOf root address memory).physical = (leafOf other place memory).physical →
    root = other ∧ address >>> 12 = place >>> 12
  writeOrExecute : ∀ root address, memory.IsRoot root → UserAccessible root address memory →
    ¬((leafOf root address memory).writable = true ∧
      (leafOf root address memory).MayExecute memory.toPagingState)
  kernel : ∀ address, ¬UserAccessible memory.kernelPageDirectory address memory

theorem Isolated.userIsolation (h : Isolated memory role) : UserIsolation memory where
  region root address hroot haccess := by
    obtain ⟨-, hmin, hlimit, -⟩ := h.userAccessible hroot haccess
    exact ⟨hmin, hlimit⟩
  frame root address hroot haccess := by
    obtain ⟨-, -, -, hrole, -⟩ := h.userAccessible hroot haccess
    have hmapped := h.page _ _ hrole (level_path _ _)
    exact ⟨pmmBlockIsUserOwned_iff.2 hmapped.owned, pmmUserBlockIsMapped_iff.2 hmapped⟩
  unshared root address other place hroot hother haccess hplace heq := by
    obtain ⟨-, -, -, hrole, -⟩ := h.userAccessible hroot haccess
    obtain ⟨-, -, -, hotherRole, -⟩ := h.userAccessible hother hplace
    rw [heq, hotherRole] at hrole
    injection hrole with hnode
    injection hnode with hsame hpath
    refine ⟨hsame.symm, ?_⟩
    rw [← UInt32.toNat_inj, UInt32.toNat_shiftRight, UInt32.toNat_shiftRight]
    rw [Nat.shiftRight_eq_div_pow, Nat.shiftRight_eq_div_pow]
    exact ((memory.mode.path_eq_iff place address).1 hpath).symm
  writeOrExecute root address hroot haccess hboth := by
    obtain ⟨-, -, -, -, hnot⟩ := h.userAccessible hroot haccess
    exact hnot hboth.1 hboth.2
  kernel address haccess := (h.userAccessible (.inl rfl) haccess).1 rfl

/-- In every state of every run, whatever the calls and their arguments, the memory of processes is
isolated. -/
theorem user_memory_isolation {features : CpuFeatures} {image : KernelImage} {fontAvailable : Bool}
    {pmm : Pmm} {frames : UInt32 → Page} {memory : Ram} (hmapped : ∀ frame, ¬pmm.Mapped frame)
    (hinit : (pagingInit features image fontAvailable pmm frames).1 = true)
    (hrun : Reaches Call.Allowed (pagingInit features image fontAvailable pmm frames).2 memory) :
    UserIsolation memory := by
  obtain ⟨role, h⟩ := hrun.isolated (pagingInit_boots hmapped hinit).isolated
  exact h.userIsolation

/-- The small machine with a process that has one page: the frame is handed out before the space is
made, the space is put to use and the page is mapped. -/
def smallProcess (features : CpuFeatures) (flags : UInt32) : Ram :=
  let served := Call.allocUser.run (smallStart features)
  (Call.map 0x00400000 0x00400000 flags).run
    ((Call.switch (pagingCreateAddressSpace served).1).run (Call.create.run served))

section SmallProcess

variable (features : CpuFeatures) {flags : UInt32} (huser : flags &&& pageFlagUser ≠ 0)

include huser

theorem reaches_smallProcess : Reaches Call.Allowed
    (pagingInit features smallImage false smallPmm fun _ _ ↦ 0).2
    (smallProcess features flags) := by
  rw [pagingInit_small]
  exact (((Reaches.start.step .allocUser trivial).step .create trivial).step (.switch _)
    trivial).step (.map 0x00400000 0x00400000 flags) fun _ hkernel ↦ absurd hkernel huser

theorem isolated_smallProcess : ∃ role, Isolated (smallProcess features flags) role :=
  (reaches_smallProcess features huser).isolated
    (pagingInit_boots not_mapped_smallPmm (pagingInit_small_ok _)).isolated

end SmallProcess

/-- A process with a page that it can write. -/
theorem user_memory_isolation_smallMachine : ∃ pmm memory root,
    pmmInit smallMachine 0x10000 0x80000 = some pmm ∧ memory.IsRoot root ∧
      UserAccessible root 0x00400000 memory ∧ UserIsolation memory := by
  have hspace : (smallProcess ⟨true, true⟩ 6).pageDirectory ∈
    (smallProcess ⟨true, true⟩ 6).addressSpaces := by decide +kernel
  exact ⟨smallPmm, _, _, pmmInit_smallMachine, .inr hspace, by decide +kernel,
    user_memory_isolation not_mapped_smallPmm (pagingInit_small_ok _)
      (reaches_smallProcess _ (by decide))⟩

end EfesOS.Memory
