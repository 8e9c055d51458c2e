import EfesOS.Memory.KernelHalf

/-!
# Destroying an address space

`paging_destroy_address_space` tells the tables of a space from the kernel's by comparing directory
entries. It goes through twice: once to see that everything it finds can be given back, and once to
give it back. `spaceReleases` lists the calls of the second pass.

As long as the copies of the kernel's directory entries are the kernel's, a space that is not in use
can always be destroyed, and what goes back to the allocator is what the space had to itself, each
frame once: `NoStale.destroysExactly`, and `address_space_destroyed_exactly` for the states of a
run.
-/

set_option autoImplicit false

namespace EfesOS.Memory

open EfesOS.Foundation.PageTree

/-! ### The calls of the second pass -/

/-- A call of the allocator while a space is destroyed. -/
inductive Release where
  | unmark (frame : UInt32)
  | free (frame : UInt32)

namespace Release

def run (pmm : Pmm) : Release → Pmm
  | unmark frame => pmmReleaseUserBlock frame pmm
  | free frame => pmmFreeBlock frame pmm

def freed : Release → Option UInt32
  | unmark _ => none
  | free frame => some frame

def unmarked : Release → Option UInt32
  | unmark frame => some frame
  | free _ => none

end Release

def pageReleases (entry : Entry) : List Release :=
  if entry.user then [.unmark entry.physical, .free entry.physical] else [.free entry.physical]

def tableReleases (memory : Ram) (tableEntry : Entry) : List Release :=
  (presentEntries tableEntry.physical memory).flatMap pageReleases ++ [.free tableEntry.physical]

def directoryReleases (memory : Ram) (directories : UInt32 × UInt32) : List Release :=
  (ownTables directories memory).flatMap (tableReleases memory) ++
    match memory.mode with
    | .legacy => []
    | .pae => [.free directories.1]

/-- The calls of the allocator that destroy a space, in their order. -/
def spaceReleases (root : UInt32) (memory : Ram) : List Release :=
  (ownDirectories root memory).flatMap (directoryReleases memory) ++ [.free root]

/-- The frames that are freed when a space is destroyed, in their order. -/
def freedFrames (root : UInt32) (memory : Ram) : List UInt32 :=
  (spaceReleases root memory).filterMap Release.freed

/-- The frames whose marks are cleared when a space is destroyed, in their order. -/
def unmarkedFrames (root : UInt32) (memory : Ram) : List UInt32 :=
  (spaceReleases root memory).filterMap Release.unmarked

section Calls

variable {memory : Ram} {root frame : UInt32}

theorem run_pageReleases (entry : Entry) (pmm : Pmm) :
    (pageReleases entry).foldl Release.run pmm = releasePage entry pmm := by
  unfold pageReleases releasePage
  split_ifs <;> rfl

theorem run_tableReleases (entry : Entry) (pmm : Pmm) :
    (tableReleases memory entry).foldl Release.run pmm = releaseTable memory pmm entry := by
  rw [tableReleases, List.foldl_append, List.foldl_flatMap, releaseTable]
  simp only [run_pageReleases]
  rfl

theorem run_directoryReleases (pair : UInt32 × UInt32) (pmm : Pmm) :
    (directoryReleases memory pair).foldl Release.run pmm = releaseDirectory memory pmm pair := by
  unfold directoryReleases releaseDirectory
  rw [List.foldl_append, List.foldl_flatMap]
  simp only [run_tableReleases]
  cases memory.mode <;> rfl

theorem run_spaceReleases : (spaceReleases root memory).foldl Release.run memory.pmm =
    pmmFreeBlock root
      ((ownDirectories root memory).foldl (releaseDirectory memory) memory.pmm) := by
  rw [spaceReleases, List.foldl_append, List.foldl_flatMap]
  simp only [run_directoryReleases]
  rfl

theorem freed_pageReleases (entry : Entry) :
    (pageReleases entry).filterMap Release.freed = [entry.physical] := by
  unfold pageReleases
  split_ifs <;> rfl

theorem freed_tableReleases (entry : Entry) :
    (tableReleases memory entry).filterMap Release.freed =
      (presentEntries entry.physical memory).map Entry.physical ++ [entry.physical] := by
  rw [tableReleases, List.filterMap_append, List.filterMap_flatMap]
  simp only [freed_pageReleases]
  rw [← List.map_eq_flatMap]
  rfl

theorem mem_freed_tableReleases {entry : Entry} :
    frame ∈ (tableReleases memory entry).filterMap Release.freed ↔
      TableFrames memory entry frame := by
  rw [freed_tableReleases, List.mem_append, List.mem_map, List.mem_singleton, TableFrames]
  simp only [eq_comm]

theorem mem_freed_directoryReleases {pair : UInt32 × UInt32} :
    frame ∈ (directoryReleases memory pair).filterMap Release.freed ↔
      DirectoryFrames memory pair frame := by
  unfold directoryReleases DirectoryFrames
  rw [List.filterMap_append, List.filterMap_flatMap, List.mem_append, List.mem_flatMap]
  simp only [mem_freed_tableReleases]
  cases memory.mode <;> simp [Release.freed]

theorem mem_freedFrames : frame ∈ freedFrames root memory ↔ SpaceFrames memory root frame := by
  rw [freedFrames, spaceReleases, List.filterMap_append, List.filterMap_flatMap, List.mem_append,
    List.mem_flatMap, SpaceFrames]
  simp only [mem_freed_directoryReleases]
  simp [Release.freed]

/-- Only what is freed is unmarked. -/
theorem unmarked_sublist_freed :
    (unmarkedFrames root memory).Sublist (freedFrames root memory) := by
  have hpage : ∀ entry : Entry, ((pageReleases entry).filterMap Release.unmarked).Sublist
      ((pageReleases entry).filterMap Release.freed) := by
    intro entry
    unfold pageReleases
    split_ifs
    · exact List.Sublist.refl _
    · exact List.nil_sublist _
  have htable : ∀ entry : Entry, ((tableReleases memory entry).filterMap Release.unmarked).Sublist
      ((tableReleases memory entry).filterMap Release.freed) := by
    intro entry
    simp only [tableReleases, List.filterMap_append, List.filterMap_flatMap]
    exact (List.Sublist.flatMap_right _ fun entry _ ↦ hpage entry).append (List.nil_sublist _)
  have hdirectory : ∀ pair : UInt32 × UInt32,
      ((directoryReleases memory pair).filterMap Release.unmarked).Sublist
        ((directoryReleases memory pair).filterMap Release.freed) := by
    intro pair
    simp only [directoryReleases, List.filterMap_append, List.filterMap_flatMap]
    refine (List.Sublist.flatMap_right _ fun entry _ ↦ htable entry).append ?_
    cases memory.mode <;> exact List.nil_sublist _
  simp only [unmarkedFrames, freedFrames, spaceReleases, List.filterMap_append,
    List.filterMap_flatMap]
  exact (List.Sublist.flatMap_right _ fun pair _ ↦ hdirectory pair).append (List.nil_sublist _)

theorem mem_unmarkedFrames : frame ∈ unmarkedFrames root memory ↔
    ∃ pair ∈ ownDirectories root memory, ∃ entry ∈ ownTables pair memory,
      ∃ page ∈ presentEntries entry.physical memory, page.user = true ∧ frame = page.physical := by
  have hpage : ∀ page : Entry, frame ∈ (pageReleases page).filterMap Release.unmarked ↔
      page.user = true ∧ frame = page.physical := by
    intro page
    unfold pageReleases
    split_ifs with huser <;> simp [Release.unmarked, huser]
  have htable : ∀ entry : Entry, frame ∈ (tableReleases memory entry).filterMap Release.unmarked ↔
      ∃ page ∈ presentEntries entry.physical memory, page.user = true ∧ frame = page.physical := by
    intro entry
    rw [tableReleases, List.filterMap_append, List.filterMap_flatMap, List.mem_append,
      List.mem_flatMap]
    simp only [hpage]
    simp [Release.unmarked]
  have hdirectory : ∀ pair : UInt32 × UInt32,
      frame ∈ (directoryReleases memory pair).filterMap Release.unmarked ↔
      ∃ entry ∈ ownTables pair memory, ∃ page ∈ presentEntries entry.physical memory,
        page.user = true ∧ frame = page.physical := by
    intro pair
    rw [directoryReleases, List.filterMap_append, List.filterMap_flatMap, List.mem_append,
      List.mem_flatMap]
    simp only [htable]
    cases memory.mode <;> simp [Release.unmarked]
  rw [unmarkedFrames, spaceReleases, List.filterMap_append, List.filterMap_flatMap, List.mem_append,
    List.mem_flatMap]
  simp only [hdirectory]
  simp [Release.unmarked]

end Calls

section Once

variable {memory : Ram} {role : UInt32 → Option Place} {root frame : UInt32}

/-- Lists of frames of different items stay without repetition when they are joined. -/
theorem nodup_flatMap_of_frames {α : Type} {items : List α} {released : α → List UInt32}
    {has : α → UInt32 → Prop} (hmem : ∀ item frame, frame ∈ released item ↔ has item frame)
    (hnodup : ∀ item ∈ items, (released item).Nodup)
    (hpairwise : items.Pairwise fun earlier later ↦ ∀ frame, has later frame → ¬has earlier frame) :
    (items.flatMap released).Nodup := by
  refine List.nodup_flatMap.2 ⟨hnodup, hpairwise.imp fun {earlier later} hdisjoint ↦ ?_⟩
  intro frame hearlier hlater
  exact hdisjoint frame ((hmem later frame).1 hlater) ((hmem earlier frame).1 hearlier)

theorem nodup_append_singleton {frames : List UInt32} (hnodup : frames.Nodup)
    (hnot : frame ∉ frames) :
    (frames ++ [frame]).Nodup := by
  rw [← List.concat_eq_append, List.nodup_concat]
  exact ⟨hnot, hnodup⟩

section

variable (h : Isolated memory role) (hprivate : root ≠ memory.kernelPageDirectory)
include h hprivate

theorem nodup_freed_tableReleases {entry : Entry} {path : List ℕ}
    (hrole : role entry.physical = some ⟨root, path⟩) (hlevel : memory.mode.level path = .table) :
    ((tableReleases memory entry).filterMap Release.freed).Nodup := by
  rw [freed_tableReleases]
  refine nodup_append_singleton ?_ ?_
  · refine List.pairwise_map.2 ((presentEntries_pairwise h hprivate hrole hlevel).imp ?_)
    exact fun hdisjoint heq ↦ hdisjoint _ heq rfl
  · rintro hmem
    obtain ⟨page, hpage, heq⟩ := List.mem_map.1 hmem
    obtain ⟨slot, hslot, rfl, hpresent⟩ := mem_presentEntries.1 hpage
    have hpageRole := (role_of_mem_presentEntries h hprivate hrole hlevel hslot hpresent).2
    rw [heq, hrole] at hpageRole
    injection hpageRole with hpageRole
    injection hpageRole with _ hpath
    exact List.cons_ne_self slot path hpath.symm

theorem nodup_freed_directoryReleases {pair : UInt32 × UInt32} {path : List ℕ}
    (hrole : role pair.1 = some ⟨root, path⟩) (hlevel : memory.mode.level path = .directory)
    (huser : ∀ entry ∈ ownTables pair memory, entry.user = true) :
    ((directoryReleases memory pair).filterMap Release.freed).Nodup := by
  have htables : ((ownTables pair memory).flatMap fun entry ↦
      (tableReleases memory entry).filterMap Release.freed).Nodup := by
    refine nodup_flatMap_of_frames (fun _ _ ↦ mem_freed_tableReleases) (fun entry hentry ↦ ?_)
      (ownTables_pairwise h hprivate hrole hlevel huser)
    obtain ⟨slot, -, hentryRole, hentryLevel⟩ := role_of_mem_ownTables h hrole hlevel huser hentry
    exact nodup_freed_tableReleases h hprivate hentryRole hentryLevel
  unfold directoryReleases
  rw [List.filterMap_append, List.filterMap_flatMap]
  cases memory.mode with
  | legacy =>
    rw [List.filterMap_nil, List.append_nil]
    exact htables
  | pae =>
    refine nodup_append_singleton htables fun hmem ↦ ?_
    obtain ⟨entry, hentry, hframe⟩ := List.mem_flatMap.1 hmem
    exact not_tableFrames_of_directory h hprivate hrole hlevel huser hentry
      (mem_freed_tableReleases.1 hframe)

end

/-- No frame is freed twice. -/
theorem nodup_freedFrames (h : Isolated memory role) (hroot : memory.IsRoot root)
    (hprivate : root ≠ memory.kernelPageDirectory) (huser : TablesReleasable memory root) :
    (freedFrames root memory).Nodup := by
  rw [freedFrames, spaceReleases, List.filterMap_append, List.filterMap_flatMap]
  refine nodup_append_singleton ?_ fun hmem ↦ ?_
  · refine nodup_flatMap_of_frames (fun _ _ ↦ mem_freed_directoryReleases) (fun pair hpair ↦ ?_)
      (ownDirectories_pairwise h hroot hprivate huser)
    obtain ⟨path, hrole, hlevel, -⟩ := mem_ownDirectories h hroot hpair
    exact nodup_freed_directoryReleases h hprivate hrole hlevel (huser pair hpair)
  · obtain ⟨pair, hpair, hframe⟩ := List.mem_flatMap.1 hmem
    exact not_directoryFrames_of_root h hroot hprivate huser hpair
      (mem_freed_directoryReleases.1 hframe)

end Once

/-! ### What a space has to itself -/

/-- A page that a process reaches in its space. -/
def UserPage (root : UInt32) (memory : Ram) (frame : UInt32) : Prop :=
  ∃ address, UserAccessible root address memory ∧ frame = (leafOf root address memory).physical

/-- What a space has to itself: its root, its page directories, its tables for user addresses and
the pages that a process reaches through them. -/
def SpaceHas (root : UInt32) (memory : Ram) (frame : UInt32) : Prop :=
  frame = root ∨ (∃ address, frame = directoryFor root address memory ∧ frame ≠ 0) ∨
    (∃ address, (userMappingMin ≤ address ∧ address < userAddressLimit) ∧
      frame = getPageTableFor root address memory ∧ frame ≠ 0) ∨
    UserPage root memory frame

/-- What the walk of the processor through a space goes through, the tables of the kernel included,
and the pages that a process reaches. -/
def RefersTo (root : UInt32) (memory : Ram) (frame : UInt32) : Prop :=
  frame = root ∨ (∃ address, frame = directoryFor root address memory) ∨
    (∃ address, frame = getPageTableFor root address memory) ∨ UserPage root memory frame

section Has

variable {memory : Ram} {role : UInt32 → Option Place} {root frame : UInt32}

/-- A page of the tree of a space hangs from one of its tables. -/
theorem Isolated.table_of_page (h : Isolated memory role) {path : List ℕ}
    (hrole : role frame = some ⟨root, path⟩) (hlevel : memory.mode.level path = .page) :
    ∃ table slot rest, path = slot :: rest ∧ role table = some ⟨root, rest⟩ ∧
      memory.mode.level rest = .table ∧ slot < memory.mode.slots ∧
      root ≠ memory.kernelPageDirectory ∧ (memory.entry table slot).present = true ∧
      (memory.entry table slot).physical = frame := by
  cases path with
  | nil => cases hmode : memory.mode <;> rw [hmode] at hlevel <;> cases hlevel
  | cons slot rest =>
    obtain ⟨table, htable, hlinks, hpresent, htarget⟩ := h.typed.up frame ⟨root, rest⟩ slot hrole
    cases hrest : memory.mode.level rest with
    | root =>
      obtain ⟨hmode, rfl⟩ := mode_of_level_root hrest
      rw [hmode] at hlevel
      cases hlevel
    | directory =>
      rw [level_table_of_directory slot hrest] at hlevel
      cases hlevel
    | table =>
      simp only [discipline, hrest] at hlinks
      exact ⟨table, slot, rest, rfl, htable, hrest, hlinks.1, hlinks.2, hpresent, htarget⟩
    | page => simp only [discipline, hrest] at hlinks

/-- What has a place at the bottom of the tree of a space is a page that its process reaches. -/
theorem Isolated.userPage_iff (h : Isolated memory role) (hroot : memory.IsRoot root) :
    UserPage root memory frame ↔
      ∃ path, role frame = some ⟨root, path⟩ ∧ memory.mode.level path = .page := by
  constructor
  · rintro ⟨address, haccess, rfl⟩
    obtain ⟨-, -, -, hrole, -⟩ := h.userAccessible hroot haccess
    exact ⟨_, hrole, level_path _ _⟩
  · rintro ⟨path, hrole, hlevel⟩
    obtain ⟨table, slot, rest, rfl, htable, hrest, hslot, hprivate, hpresent, rfl⟩ :=
      h.table_of_page hrole hlevel
    obtain ⟨address, rfl, hregion⟩ := h.exists_tablePath htable hrest
    have hinside := hregion.resolve_left hprivate
    obtain ⟨page, hpage⟩ := memory.mode.exists_path address hslot
    injection hpage with hindex hpath
    have hpageInside : userMappingMin ≤ page ∧ page < userAddressLimit := by
      have hregion := (memory.mode.userRegion_iff address).2 hinside
      injection hpath with hdirectory hupper
      rw [← hdirectory, ← hupper, memory.mode.userRegion_iff] at hregion
      exact hregion
    rw [← hpath] at htable
    have hleaf : mappingOf root page memory = some (memory.entry table slot) :=
      (h.mappingOf_eq_some hroot (.inr hpageInside)).2 ⟨table, htable, by rw [hindex], hpresent⟩
    obtain ⟨hentry, -⟩ := Entry.view_eq_some.1 hleaf
    have hdirectory := (h.directoryEntry_cases hroot (.inr hpageInside)).resolve_left
      fun hnone ↦ hnone.2 table htable
    have huser :=
      (role_of_mem_presentEntries h hprivate htable (level_tablePath _ _) hslot hpresent).1
    refine ⟨page, ⟨hdirectory.1, ?_, ?_, ?_⟩, ?_⟩
    · exact (h.user_directoryEntry hroot hdirectory.1).2 ⟨hprivate, hpageInside⟩
    · rw [hentry]
      exact hpresent
    · rw [hentry]
      exact huser
    · rw [hentry]

/-- What has a place in the tree of a space is what the space has to itself. -/
theorem Isolated.spaceHas_iff (h : Isolated memory role) (hroot : memory.IsRoot root)
    (hprivate : root ≠ memory.kernelPageDirectory) :
    SpaceHas root memory frame ↔ FrameOf role root frame := by
  constructor
  · rintro (rfl | ⟨address, rfl, hne⟩ | ⟨address, hinside, rfl, hne⟩ | hpage)
    · exact ⟨_, h.typed.top _ hroot, rfl⟩
    · exact ⟨_, h.role_directoryFor hroot hne, rfl⟩
    · exact ⟨_, ((h.getPageTableFor_cases hroot (.inr hinside)).resolve_left
        fun hzero ↦ hne hzero.1).2, rfl⟩
    · obtain ⟨path, hrole, -⟩ := (h.userPage_iff hroot).1 hpage
      exact ⟨_, hrole, rfl⟩
  · rintro ⟨⟨_, path⟩, hrole, rfl⟩
    have hne := (h.held frame _ hrole).ne_zero
    cases hlevel : memory.mode.level path with
    | root =>
      obtain ⟨-, rfl⟩ := mode_of_level_root hlevel
      exact .inl (h.typed.top_inv frame _ hrole).1
    | directory =>
      obtain ⟨address, rfl⟩ := h.exists_directoryPath hrole hlevel
      exact .inr (.inl ⟨address, (h.directoryFor_eq hroot hrole).symm, hne⟩)
    | table =>
      obtain ⟨address, rfl, hregion⟩ := h.exists_tablePath hrole hlevel
      have htable := (h.getPageTableFor_cases hroot hregion).resolve_left
        fun hnone ↦ hnone.2 frame hrole
      exact .inr (.inr (.inl ⟨address, hregion.resolve_left hprivate,
        h.typed.injective hrole htable.2, hne⟩))
    | page => exact .inr (.inr (.inr ((h.userPage_iff hroot).2 ⟨path, hrole, hlevel⟩)))

end Has

/-! ### Destroying exactly -/

/-- A space is destroyed, and nothing else is touched: the call succeeds, takes the one entry out of
the registry, clears the marks of the pages of the space and frees what it had to itself, each frame
once, and nothing that the kernel or another space refers to. -/
structure DestroysExactly (root : UInt32) (memory : Ram) : Prop where
  returns : (pagingDestroyAddressSpace root memory).1 = true
  registry : (pagingDestroyAddressSpace root memory).2.addressSpaces.Perm
    (memory.addressSpaces.erase root)
  calls : (pagingDestroyAddressSpace root memory).2.pmm =
    (spaceReleases root memory).foldl Release.run memory.pmm
  freed : ∀ frame, frame ∈ freedFrames root memory ↔ SpaceHas root memory frame
  freedOnce : (freedFrames root memory).Nodup
  unmarked : ∀ frame, frame ∈ unmarkedFrames root memory ↔ UserPage root memory frame
  unmarkedOnce : (unmarkedFrames root memory).Nodup
  reclaims : memory.pmm.Reclaims (SpaceHas root memory)
    (pagingDestroyAddressSpace root memory).2.pmm
  held : ∀ frame, SpaceHas root memory frame → memory.pmm.Held frame
  others : ∀ other, memory.IsRoot other → other ≠ root → ∀ frame, SpaceHas root memory frame →
    ¬RefersTo other memory frame

section Exactly

variable {memory : Ram} {role : UInt32 → Option Place} {root : UInt32}

section

variable (hstale : NoStale memory) (h : Isolated memory role) (hroot : root ∈ memory.addressSpaces)
  {pair : UInt32 × UInt32} {entry : Entry}
include hstale h hroot

/-- The tables that are not the kernel's are those for user addresses. -/
theorem NoStale.userRegion_of_own {path : List ℕ} (hrole : role pair.1 = some ⟨root, path⟩)
    (hlevel : memory.mode.level path = .directory)
    (hkernel : (∀ frame, role frame ≠ some ⟨memory.kernelPageDirectory, path⟩) ∨
      role pair.2 = some ⟨memory.kernelPageDirectory, path⟩)
    {slot : ℕ} (hslot : slot ∈ destroyedSlots memory.mode)
    (hentry : ownTableAt pair memory slot = some entry) : memory.mode.userRegion path slot := by
  obtain ⟨hsame, hpresent, hother⟩ := ownTableAt_eq_some.1 hentry
  obtain ⟨address, haddress⟩ := memory.mode.exists_tablePath hlevel
    (lt_slots_of_mem_destroyedSlots hslot) (h.upper_lt hrole hlevel)
  injection haddress with hindex hpath
  subst hindex hpath
  rw [memory.mode.userRegion_iff]
  refine not_outsideUser_iff.1 fun houtside ↦ ?_
  have htable : tableOf root address memory = some entry :=
    (h.tableOf_eq_some (.inr hroot)).2 ⟨pair.1, hrole, hsame, hpresent⟩
  have hcopied := hstale root hroot address houtside entry htable
  obtain ⟨directory, hdirectory, hkernelEntry, -⟩ := (h.tableOf_eq_some (.inl rfl)).1 hcopied
  have hkernelRole := hkernel.resolve_left fun hnone ↦ hnone directory hdirectory
  rw [h.typed.injective hdirectory hkernelRole] at hkernelEntry
  refine hother (h.held _ _ hkernelRole).ne_zero ?_ ?_
  · rw [hkernelEntry]
    exact hpresent
  · rw [hkernelEntry]

/-- The tables of a space that are not the kernel's belong to its process, and so do their pages. -/
theorem NoStale.tableCanBeReleased (hpair : pair ∈ ownDirectories root memory)
    (hentry : entry ∈ ownTables pair memory) : tableCanBeReleased memory entry = true := by
  have hprivate : root ≠ memory.kernelPageDirectory := fun heq ↦ h.kernel (heq ▸ hroot)
  obtain ⟨path, hrole, hlevel, hkernel⟩ := mem_ownDirectories h (.inr hroot) hpair
  obtain ⟨slot, hslot, hsome⟩ := List.mem_filterMap.1 hentry
  have hregion := hstale.userRegion_of_own h hroot hrole hlevel hkernel hslot hsome
  obtain ⟨rfl, hpresent, -⟩ := ownTableAt_eq_some.1 hsome
  have hadmits := h.typed.admits _ _ _ hrole hpresent
  simp only [discipline, hlevel] at hadmits
  have huser := ((hadmits (lt_slots_of_mem_destroyedSlots hslot)).1).2 ⟨hprivate, hregion⟩
  have htable := role_of_ownTableAt h hrole hlevel hslot hsome huser
  have htableLevel := level_table_of_directory slot hlevel
  rw [EfesOS.Memory.tableCanBeReleased, Bool.and_eq_true, List.all_eq_true]
  refine ⟨huser, fun page hpage ↦ ?_⟩
  obtain ⟨index, hindex, rfl, hpagePresent⟩ := mem_presentEntries.1 hpage
  have hpageRole := (role_of_mem_presentEntries h hprivate htable htableLevel hindex hpagePresent).2
  have hmapped := h.page _ _ hpageRole (level_page_of_table index htableLevel)
  rw [Bool.and_eq_true]
  exact ⟨pmmBlockIsUserOwned_iff.2 hmapped.owned, pmmUserBlockIsMapped_iff.2 hmapped⟩

end

/-- The pages whose marks are cleared are those that the process reaches. -/
theorem mem_unmarkedFrames_iff (h : Isolated memory role) (hroot : memory.IsRoot root)
    (hprivate : root ≠ memory.kernelPageDirectory) (huser : TablesReleasable memory root)
    (frame : UInt32) : frame ∈ unmarkedFrames root memory ↔ UserPage root memory frame := by
  rw [mem_unmarkedFrames, h.userPage_iff hroot]
  constructor
  · rintro ⟨pair, hpair, entry, hentry, page, hpage, -, rfl⟩
    obtain ⟨path, hrole, hlevel, -⟩ := mem_ownDirectories h hroot hpair
    obtain ⟨slot, -, hentryRole, hentryLevel⟩ :=
      role_of_mem_ownTables h hrole hlevel (huser pair hpair) hentry
    obtain ⟨index, hindex, rfl, hpresent⟩ := mem_presentEntries.1 hpage
    exact ⟨_, (role_of_mem_presentEntries h hprivate hentryRole hentryLevel hindex hpresent).2,
      level_page_of_table index hentryLevel⟩
  · rintro ⟨path, hrole, hlevel⟩
    obtain ⟨table, slot, rest, rfl, htable, hrest, hslot, -, hpresent, htarget⟩ :=
      h.table_of_page hrole hlevel
    obtain ⟨upper, above, rfl, habove⟩ := exists_of_level_table hrest
    obtain ⟨pair, hpair, entry, hentry, rfl⟩ := exists_ownTable h hprivate htable habove
    exact ⟨pair, hpair, entry, hentry, _, mem_presentEntries.2 ⟨slot, hslot, rfl, hpresent⟩,
      (role_of_mem_presentEntries h hprivate htable hrest hslot hpresent).1, htarget.symm⟩

/-- What a space refers to is in its own tree or in the kernel's. -/
theorem NoStale.root_of_refersTo (hstale : NoStale memory) (h : Isolated memory role)
    {other frame : UInt32} (hother : memory.IsRoot other) (hrefers : RefersTo other memory frame)
    {place : Place} (hrole : role frame = some place) :
    place.root = other ∨ place.root = memory.kernelPageDirectory := by
  have hne := (h.held frame place hrole).ne_zero
  have hplace : ∀ found, role frame = some found → found.root = place.root := by
    intro found hfound
    rw [hrole] at hfound
    injection hfound with hfound
    rw [hfound]
  rcases hrefers with rfl | ⟨address, rfl⟩ | ⟨address, rfl⟩ | hpage
  · exact .inl (hplace _ (h.typed.top _ hother)).symm
  · exact .inl (hplace _ (h.role_directoryFor hother hne)).symm
  · by_cases hregion : Isolated.OwnRegion memory.toPagingState other address
    · exact .inl (hplace _ ((h.getPageTableFor_cases hother hregion).resolve_left
        fun hzero ↦ hne hzero.1).2).symm
    -- Outside the user addresses the entry is a copy of the kernel's.
    · rw [Isolated.OwnRegion, not_or] at hregion
      have hmem := hother.resolve_left hregion.1
      have houtside : OutsideUser address := not_not.1 fun hinside ↦
        hregion.2 (not_outsideUser_iff.1 hinside)
      have hpresent : (directoryEntryOf other address memory).present = true := by
        by_contra habsent
        rw [getPageTableFor_eq, if_neg habsent] at hne
        exact hne rfl
      have hcopied := hstale other hmem address houtside _ (Entry.view_eq_some.2 ⟨rfl, hpresent⟩)
      obtain ⟨hsame, hkernelPresent⟩ := Entry.view_eq_some.1 hcopied
      have htable : getPageTableFor memory.kernelPageDirectory address memory =
          getPageTableFor other address memory := by
        rw [getPageTableFor_eq, getPageTableFor_eq, hsame]
      have hkernelRole := ((h.getPageTableFor_cases (.inl rfl) (.inl rfl)).resolve_left
        fun hzero ↦ hne (htable ▸ hzero.1)).2
      rw [htable] at hkernelRole
      exact .inr (hplace _ hkernelRole).symm
  · obtain ⟨path, hpageRole, -⟩ := (h.userPage_iff hother).1 hpage
    exact .inl (hplace _ hpageRole).symm

/-- A registered space that is not in use can be destroyed, and exactly. -/
theorem NoStale.destroysExactly (hstale : NoStale memory) (h : Isolated memory role)
    (hroot : root ∈ memory.addressSpaces) (hcurrent : root ≠ memory.pageDirectory) :
    DestroysExactly root memory := by
  have hprivate : root ≠ memory.kernelPageDirectory := fun heq ↦ h.kernel (heq ▸ hroot)
  have hisRoot : memory.IsRoot root := .inr hroot
  have hreleased : ∀ pair ∈ ownDirectories root memory, ∀ entry ∈ ownTables pair memory,
      EfesOS.Memory.tableCanBeReleased memory entry = true :=
    fun pair hpair entry hentry ↦ hstale.tableCanBeReleased h hroot hpair hentry
  have huser : TablesReleasable memory root := by
    intro pair hpair entry hentry
    have hok := hreleased pair hpair entry hentry
    rw [EfesOS.Memory.tableCanBeReleased, Bool.and_eq_true] at hok
    exact hok.1
  have hvalid := (pagingAddressSpaceIsValid_iff h).2 hisRoot
  have heq : pagingDestroyAddressSpace root memory = (true, { memory with
      pmm := (spaceReleases root memory).foldl Release.run memory.pmm
      addressSpaces := unregister root memory.addressSpaces }) := by
    unfold pagingDestroyAddressSpace
    rw [if_neg (by simp [hprivate, hcurrent, hvalid])]
    rw [if_pos, run_spaceReleases]
    rw [List.all_eq_true]
    intro pair hpair
    rw [List.all_eq_true]
    exact hreleased pair hpair
  have hfreed : ∀ frame, frame ∈ freedFrames root memory ↔ SpaceHas root memory frame := by
    intro frame
    rw [mem_freedFrames, spaceFrames_iff h hisRoot hprivate huser, h.spaceHas_iff hisRoot hprivate]
  have honce := nodup_freedFrames h hisRoot hprivate huser
  have hreclaims := (release_reclaims h hisRoot hprivate huser).congr
    fun frame ↦ mem_freedFrames.symm.trans (hfreed frame)
  rw [← run_spaceReleases] at hreclaims
  refine ⟨by rw [heq],
    ?_, by rw [heq], hfreed, honce, mem_unmarkedFrames_iff h hisRoot hprivate huser,
    honce.sublist unmarked_sublist_freed, by rw [heq]; exact hreclaims, ?_, ?_⟩
  · rw [heq]
    obtain ⟨first, second, hnot, hsplit, herase⟩ := List.exists_erase_eq hroot
    rw [herase, hsplit]
    exact unregister_perm hnot
  · intro frame hhas
    obtain ⟨place, hrole, -⟩ := (h.spaceHas_iff hisRoot hprivate).1 hhas
    exact h.held frame place hrole
  · intro other hother hne frame hhas hrefers
    obtain ⟨place, hrole, hplace⟩ := (h.spaceHas_iff hisRoot hprivate).1 hhas
    rcases hstale.root_of_refersTo h hother hrefers hrole with hsame | hkernel
    · exact hne (hsame.symm.trans hplace)
    · exact hprivate (hplace.symm.trans hkernel)

end Exactly

/-- In every run where the kernel frees no table of its half while spaces are registered, a
registered space that is not in use can be destroyed, and exactly. -/
theorem address_space_destroyed_exactly {features : CpuFeatures} {image : KernelImage}
    {fontAvailable : Bool} {pmm : Pmm} {frames : UInt32 → Page} {memory : Ram} {root : UInt32}
    (hmapped : ∀ frame, ¬pmm.Mapped frame)
    (hinit : (pagingInit features image fontAvailable pmm frames).1 = true)
    (hrun : Reaches (fun call before ↦ call.Allowed before ∧ FreesNoTable call before)
      (pagingInit features image fontAvailable pmm frames).2 memory)
    (hroot : root ∈ memory.addressSpaces) (hcurrent : root ≠ memory.pageDirectory) :
    DestroysExactly root memory := by
  have hbooted := pagingInit_boots hmapped hinit
  obtain ⟨⟨role, h⟩, hstale⟩ := hrun.invariant
    (P := fun memory ↦ (∃ role, Isolated memory role) ∧ NoStale memory)
    ⟨hbooted.isolated, fun root hroot ↦ by rw [hbooted.spaces] at hroot; cases hroot⟩
    fun before call ⟨⟨role, h⟩, hstale⟩ hallowed ↦
      ⟨call.isolated h hallowed.1, call.noStale h hstale hallowed.1 hallowed.2⟩
  exact hstale.destroysExactly h hroot hcurrent

/-- A space with a page is destroyed once the kernel's directory is in use again. -/
theorem address_space_destroyed_smallProcess : ∃ pmm memory root,
    pmmInit smallMachine 0x10000 0x80000 = some pmm ∧ memory.mode = .pae ∧
      root ∈ memory.addressSpaces ∧ (mappingOf root 0x00400000 memory).isSome = true ∧
      DestroysExactly root memory := by
  have hroot : (smallProcess ⟨true, false⟩ 6).pageDirectory ∈ (Call.run (.switch
      (smallStart ⟨true, false⟩).pageDirectory) (smallProcess ⟨true, false⟩ 6)).addressSpaces := by
    decide +kernel
  refine ⟨smallPmm, _, _, pmmInit_smallMachine, by decide +kernel, hroot, by decide +kernel,
    address_space_destroyed_exactly not_mapped_smallPmm (pagingInit_small_ok ⟨true, false⟩)
      (.step ?_ (.switch _) ⟨trivial, by simp [FreesNoTable]⟩) hroot (by decide +kernel)⟩
  rw [pagingInit_small]
  exact (((Reaches.start.step .allocUser ⟨trivial, by simp [FreesNoTable]⟩).step .create
    ⟨trivial, by simp [FreesNoTable]⟩).step (.switch _) ⟨trivial, by simp [FreesNoTable]⟩).step
    (.map 0x00400000 0x00400000 6)
    ⟨fun _ hkernel ↦ absurd hkernel (by decide), by simp [FreesNoTable]⟩

/-- The kernel maps a page of its half, makes a space and unmaps the page: with the three-level
format the space cannot be destroyed. -/
theorem address_space_not_destroyed : ∃ pmm memory root,
    pmmInit smallMachine 0x10000 0x80000 = some pmm ∧
      Reaches Call.Allowed (pagingInit ⟨true, false⟩ smallImage false pmm fun _ _ ↦ 0).2 memory ∧
      root ∈ memory.addressSpaces ∧ root ≠ memory.pageDirectory ∧
      pagingDestroyAddressSpace root memory = (false, memory) := by
  have hrefused : ∀ {root : UInt32} {memory : Ram}, (pagingDestroyAddressSpace root memory).1 =
      false → pagingDestroyAddressSpace root memory = (false, memory) := by
    intro root memory hfailed
    unfold pagingDestroyAddressSpace at hfailed ⊢
    dsimp only at hfailed ⊢
    split_ifs at hfailed ⊢ <;> rfl
  refine ⟨smallPmm, (Call.unmap 0xC0000000).run (Call.create.run
    ((Call.map 0xC0000000 0x00100000 pageFlagWritable).run (smallStart ⟨true, false⟩))), 0x003F6000,
    pmmInit_smallMachine, ?_, by decide +kernel, by decide +kernel, hrefused (by decide +kernel)⟩
  rw [pagingInit_small]
  exact ((Reaches.start.step (.map 0xC0000000 0x00100000 pageFlagWritable)
    fun _ _ ↦ ⟨by decide +kernel, by decide⟩).step .create trivial).step _ fun _ ↦
      .inr ⟨by decide +kernel, by decide⟩

end EfesOS.Memory
