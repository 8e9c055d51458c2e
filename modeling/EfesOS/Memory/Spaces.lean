import EfesOS.Memory.Pages

/-!
# Address spaces

What the calls on whole address spaces do to the trees. A new space is a tree whose root, and page
directories in the three-level format, are copies of the kernel's (`pagingCreateAddressSpace_spec`);
a space that is destroyed gives back exactly the frames of its tree
(`pagingDestroyAddressSpace_spec`).
-/

set_option autoImplicit false

namespace EfesOS.Memory

open EfesOS.Foundation.PageTree

variable {memory after : Ram} {role : UInt32 → Option Place}

/-! ### Switching -/

variable {directory : UInt32}

theorem addressSpaceIsRegistered_iff :
    addressSpaceIsRegistered directory memory = true ↔ memory.IsRoot directory := by
  simp [addressSpaceIsRegistered, PagingState.IsRoot]

theorem pagingAddressSpaceIsValid_iff (h : Isolated memory role) :
    pagingAddressSpaceIsValid directory memory = true ↔ memory.IsRoot directory := by
  simp only [pagingAddressSpaceIsValid, Bool.and_eq_true, addressSpaceIsRegistered_iff,
    decide_eq_true_eq, bne_iff_ne]
  refine ⟨And.right, fun hroot ↦ ?_⟩
  have hheld := h.held _ _ (h.typed.top directory hroot)
  exact ⟨⟨hheld.ne_zero, hheld.1⟩, hroot⟩

/-- The other directory is in use, and nothing else is different. -/
structure Switches (directory : UInt32) (memory after : Ram) : Prop where
  state : after.toPagingState = { memory.toPagingState with pageDirectory := directory }
  pmm : after.pmm = memory.pmm
  frames : after.frames = memory.frames

theorem Switches.isolated (hswitch : Switches directory memory after) (h : Isolated memory role)
    (hroot : memory.IsRoot directory) : Isolated after role := by
  have hentry : after.entry = memory.entry := by
    funext frame index
    exact Ram.entry_congr (by rw [hswitch.state]) (by rw [hswitch.frames]) index
  refine ⟨?_, ?_, ?_, ?_, ?_, ?_, ?_, ?_⟩
  · rw [hentry, hswitch.state]
    exact h.typed
  all_goals simp only [hswitch.pmm, hswitch.state]
  · exact h.held
  · exact h.kernelOwned
  · exact h.page
  · exact h.mapped
  · exact hroot
  · exact h.spaces
  · exact h.kernel

theorem pagingSwitchAddressSpace_spec (h : Isolated memory role) (directory : UInt32) :
    (pagingSwitchAddressSpace directory memory = (false, memory) ∧ ¬memory.IsRoot directory) ∨
    ((pagingSwitchAddressSpace directory memory).1 = true ∧ memory.IsRoot directory ∧
      Switches directory memory (pagingSwitchAddressSpace directory memory).2) := by
  unfold pagingSwitchAddressSpace
  cases hvalid : pagingAddressSpaceIsValid directory memory with
  | false =>
    refine .inl ⟨if_pos rfl, fun hroot ↦ ?_⟩
    rw [(pagingAddressSpaceIsValid_iff h).2 hroot] at hvalid
    cases hvalid
  | true =>
    have hroot := (pagingAddressSpaceIsValid_iff h).1 hvalid
    rw [if_neg (by simp)]
    by_cases hsame : directory = memory.pageDirectory
    · rw [if_pos hsame]
      exact .inr ⟨rfl, hroot, by rw [hsame], rfl, rfl⟩
    · rw [if_neg hsame]
      exact .inr ⟨rfl, hroot, by simp, by simp, by simp⟩

/-! ### The registry -/

/-- Taking a directory out of the registry, up to the order of the others. -/
theorem unregister_perm {first second : List UInt32} (hfirst : directory ∉ first) :
    (unregister directory (first ++ directory :: second)).Perm (first ++ second) := by
  have hnone : first.findIdx? (fun other ↦ other == directory) = none := by
    rw [List.findIdx?_eq_none_iff]
    intro other hother
    simp only [beq_eq_false_iff_ne]
    rintro rfl
    exact hfirst hother
  have hindex : (first ++ directory :: second).idxOf? directory = some first.length := by
    simp [List.idxOf?, List.findIdx?_append, hnone, List.findIdx?_cons]
  simp only [unregister, hindex]
  rw [List.set_append_right _ _ le_rfl, Nat.sub_self, List.set_cons_zero]
  rcases List.eq_nil_or_concat second with rfl | ⟨init, last, rfl⟩
  · simp
  · have hlast : (first ++ directory :: (init ++ [last])).getLastD 0 = last := by
      rw [show first ++ directory :: (init ++ [last]) = (first ++ directory :: init) ++ [last] by
        simp]
      exact List.getLastD_concat
    rw [List.concat_eq_append, hlast, show first ++ last :: (init ++ [last]) =
      (first ++ last :: init) ++ [last] by simp, List.dropLast_concat]
    have hswap : ([last] ++ init).Perm (init ++ [last]) := List.perm_append_comm
    exact hswap.append_left first

variable {spaces : List UInt32}

theorem mem_unregister {other : UInt32} (hspaces : spaces.Nodup) (hmem : directory ∈ spaces) :
    other ∈ unregister directory spaces ↔ other ∈ spaces ∧ other ≠ directory := by
  obtain ⟨first, second, rfl⟩ := List.append_of_mem hmem
  rw [List.nodup_middle, List.nodup_cons, List.mem_append, not_or] at hspaces
  rw [(unregister_perm hspaces.1.1).mem_iff, List.mem_append, List.mem_append, List.mem_cons]
  constructor
  · rintro (h | h)
    · exact ⟨.inl h, fun heq ↦ hspaces.1.1 (heq ▸ h)⟩
    · exact ⟨.inr (.inr h), fun heq ↦ hspaces.1.2 (heq ▸ h)⟩
  · rintro ⟨h | h | h, hne⟩
    · exact .inl h
    · exact absurd h hne
    · exact .inr h

theorem nodup_unregister (hspaces : spaces.Nodup) (hmem : directory ∈ spaces) :
    (unregister directory spaces).Nodup := by
  obtain ⟨first, second, rfl⟩ := List.append_of_mem hmem
  rw [List.nodup_middle, List.nodup_cons, List.mem_append, not_or] at hspaces
  rw [(unregister_perm hspaces.1.1).nodup_iff]
  exact hspaces.2

/-! ### Destroying -/

/-- The frames of one tree. -/
def FrameOf (role : UInt32 → Option Place) (root frame : UInt32) : Prop :=
  ∃ place, role frame = some place ∧ place.root = root

theorem not_frameOf_of_without {root frame : UInt32} {place : Place}
    (hrole : without role root frame = some place) : ¬FrameOf role root frame := by
  obtain ⟨hbefore, hne⟩ := without_eq_some.1 hrole
  rintro ⟨other, hother, hroot⟩
  rw [hbefore] at hother
  injection hother with hother
  exact hne (hother ▸ hroot)

/-- A tree whose frames went back to the allocator is gone; the others are as they were. -/
theorem Isolated.uproot (h : Isolated memory role) {root : UInt32}
    (hroot : root ≠ memory.kernelPageDirectory) (hcurrent : root ≠ memory.pageDirectory)
    (hstate : after.toPagingState = { memory.toPagingState with addressSpaces := spaces })
    (hspaces : ∀ other, other ∈ spaces ↔ other ∈ memory.addressSpaces ∧ other ≠ root)
    (hnodup : spaces.Nodup) (hframes : after.frames = memory.frames)
    (hreclaims : memory.pmm.Reclaims (FrameOf role root) after.pmm) :
    Isolated after (without role root) := by
  have hentry : after.entry = memory.entry := by
    funext frame index
    exact Ram.entry_congr (by rw [hstate]) (by rw [hframes]) index
  have hroots : after.IsRoot = fun frame ↦ memory.IsRoot frame ∧ frame ≠ root := by
    funext frame
    refine propext ?_
    simp only [PagingState.IsRoot, hstate, hspaces]
    constructor
    · rintro (heq | hmem)
      · exact ⟨.inl heq, fun h ↦ hroot (h ▸ heq)⟩
      · exact ⟨.inr hmem.1, hmem.2⟩
    · rintro ⟨heq | hmem, hne⟩
      · exact .inl heq
      · exact .inr ⟨hmem, hne⟩
  have htyped := h.typed.uproot root
  refine ⟨?_, ?_, ?_, ?_, ?_, ?_, ?_, ?_⟩
  · rw [hentry, hroots, hstate]
    exact htyped
  · intro frame place hrole
    rw [hreclaims.held]
    exact ⟨h.held frame place (without_eq_some.1 hrole).1, not_frameOf_of_without hrole⟩
  · intro frame place hrole hlevel
    rw [hstate] at hlevel
    rw [hreclaims.owned]
    exact fun howned ↦ h.kernelOwned frame place (without_eq_some.1 hrole).1 hlevel howned.1
  · intro frame place hrole hlevel
    rw [hstate] at hlevel
    rw [hreclaims.mapped]
    exact ⟨h.page frame place (without_eq_some.1 hrole).1 hlevel, not_frameOf_of_without hrole⟩
  · intro frame hmapped
    obtain ⟨hbefore, hother⟩ := (hreclaims.mapped frame).1 hmapped
    obtain ⟨place, hrole, hlevel⟩ := h.mapped frame hbefore
    refine ⟨place, without_eq_some.2 ⟨hrole, fun heq ↦ hother ⟨place, hrole, heq⟩⟩, ?_⟩
    rw [hstate]
    exact hlevel
  · rw [hroots, hstate]
    exact ⟨h.current, fun heq ↦ hcurrent heq.symm⟩
  · rw [hstate]
    exact hnodup
  · rw [hstate]
    exact fun hmem ↦ h.kernel ((hspaces _).1 hmem).1

section Destroy

variable {root : UInt32}

variable {pair : UInt32 × UInt32}

theorem ownDirectoryAt_eq_some {index : ℕ} :
    ownDirectoryAt root memory index = some pair ↔
      pair = (paePageDirectoryFor root index memory,
        paePageDirectoryFor memory.kernelPageDirectory index memory) ∧
      pair.1 ≠ 0 ∧ (pair.2 ≠ 0 → (memory.entry root index).physical ≠
        (memory.entry memory.kernelPageDirectory index).physical) := by
  unfold ownDirectoryAt
  dsimp only
  constructor
  · intro hsome
    split_ifs at hsome with hskip
    injection hsome with hsome
    rw [not_or, not_and] at hskip
    exact ⟨hsome.symm, hsome ▸ hskip.1, hsome ▸ hskip.2⟩
  · rintro ⟨rfl, hne, hshared⟩
    exact if_neg (by rw [not_or, not_and]; exact ⟨hne, hshared⟩)

/-- The own directories of a space are those of its tree. -/
theorem mem_ownDirectories (h : Isolated memory role) (hroot : memory.IsRoot root)
    (hpair : pair ∈ ownDirectories root memory) :
    ∃ path, role pair.1 = some ⟨root, path⟩ ∧ memory.mode.level path = .directory ∧
      ((∀ frame, role frame ≠ some ⟨memory.kernelPageDirectory, path⟩) ∨
        role pair.2 = some ⟨memory.kernelPageDirectory, path⟩) := by
  have hkernel : memory.IsRoot memory.kernelPageDirectory := .inl rfl
  cases hmode : memory.mode with
  | legacy =>
    simp only [ownDirectories, hmode, List.mem_singleton] at hpair
    subst hpair
    exact ⟨[], h.typed.top root hroot, rfl, .inr (h.typed.top _ hkernel)⟩
  | pae =>
    simp only [ownDirectories, hmode, List.mem_filterMap, List.mem_range] at hpair
    obtain ⟨index, hindex, hsome⟩ := hpair
    obtain ⟨rfl, hne, -⟩ := ownDirectoryAt_eq_some.1 hsome
    refine ⟨[index], ?_, rfl, ?_⟩
    · exact ((h.paePageDirectoryFor_cases hmode hroot hindex).resolve_left
        fun hzero ↦ hne hzero.1).2.2
    · exact (h.paePageDirectoryFor_cases hmode hkernel hindex).imp And.right fun hsome ↦ hsome.2.2

variable {mode : Mode} {slot : ℕ}

theorem lt_slots_of_mem_destroyedSlots (hslot : slot ∈ destroyedSlots mode) :
    slot < mode.slots := by
  cases mode with
  | legacy =>
    simp only [destroyedSlots, List.mem_range'_1] at hslot
    change slot < 1024
    omega
  | pae => exact List.mem_range.1 hslot

theorem nodup_destroyedSlots (mode : Mode) : (destroyedSlots mode).Nodup := by
  cases mode with
  | legacy => exact List.nodup_range'
  | pae => exact List.nodup_range

variable {entry : Entry}

theorem ownTableAt_eq_some :
    ownTableAt pair memory slot = some entry ↔
      memory.entry pair.1 slot = entry ∧ entry.present = true ∧
      (pair.2 ≠ 0 → (memory.entry pair.2 slot).present = true →
        entry.physical ≠ (memory.entry pair.2 slot).physical) := by
  unfold ownTableAt
  dsimp only
  constructor
  · intro hsome
    split_ifs at hsome with hskip
    injection hsome with hsome
    subst hsome
    simp only [not_or, not_and, Bool.not_eq_false] at hskip
    exact ⟨rfl, hskip⟩
  · rintro ⟨rfl, hpresent, hshared⟩
    refine if_neg ?_
    simp only [not_or, not_and, Bool.not_eq_false]
    exact ⟨hpresent, hshared⟩

variable {path : List ℕ}

/-- A table of the user's in an own directory is one of the tree. -/
theorem role_of_ownTableAt (h : Isolated memory role) (hrole : role pair.1 = some ⟨root, path⟩)
    (hlevel : memory.mode.level path = .directory) (hslot : slot ∈ destroyedSlots memory.mode)
    (hentry : ownTableAt pair memory slot = some entry) (huser : entry.user = true) :
    role entry.physical = some ⟨root, slot :: path⟩ := by
  obtain ⟨rfl, hpresent, -⟩ := ownTableAt_eq_some.1 hentry
  have hlt := lt_slots_of_mem_destroyedSlots hslot
  have hadmits := h.typed.admits _ _ _ hrole hpresent
  simp only [discipline, hlevel] at hadmits
  have hlinks : (discipline memory.toPagingState).links ⟨root, path⟩ slot := by
    simp only [discipline, hlevel]
    exact ⟨hlt, .inr ((hadmits hlt).1.1 huser).2⟩
  exact h.typed.down _ _ _ hrole hlinks hpresent

variable {table : UInt32}

theorem mem_presentEntries :
    entry ∈ presentEntries table memory ↔
      ∃ slot < memory.mode.slots, memory.entry table slot = entry ∧ entry.present = true := by
  simp only [presentEntries, List.mem_filter, List.mem_map, List.mem_range]
  constructor
  · rintro ⟨⟨slot, hslot, rfl⟩, hpresent⟩
    exact ⟨slot, hslot, rfl, hpresent⟩
  · rintro ⟨slot, hslot, rfl, hpresent⟩
    exact ⟨⟨slot, hslot, rfl⟩, hpresent⟩

section

variable (h : Isolated memory role) (hprivate : root ≠ memory.kernelPageDirectory)
  (hrole : role table = some ⟨root, path⟩) (hlevel : memory.mode.level path = .table)
include h hprivate hrole hlevel

/-- The pages of a table of a process are pages of its tree. -/
theorem role_of_mem_presentEntries (hslot : slot < memory.mode.slots)
    (hpresent : (memory.entry table slot).present = true) :
    (memory.entry table slot).user = true ∧
      role (memory.entry table slot).physical = some ⟨root, slot :: path⟩ := by
  have hadmits := h.typed.admits _ _ _ hrole hpresent
  simp only [discipline, hlevel] at hadmits
  exact ⟨(hadmits hslot).1.2 hprivate,
    h.typed.down _ _ _ hrole (Isolated.links_table hlevel hslot hprivate) hpresent⟩

/-- The pages of a table of a process are different. -/
theorem presentEntries_pairwise :
    (presentEntries table memory).Pairwise fun earlier later ↦
      ∀ frame, frame = later.physical → ¬frame = earlier.physical := by
  rw [presentEntries, List.pairwise_filter, List.pairwise_map]
  refine List.Pairwise.imp_of_mem ?_ List.nodup_range
  rintro first second hfirst hsecond hne hpresent hpresent' frame rfl heq
  have hone := (role_of_mem_presentEntries h hprivate hrole hlevel
    (List.mem_range.1 hfirst) hpresent).2
  have htwo := (role_of_mem_presentEntries h hprivate hrole hlevel
    (List.mem_range.1 hsecond) hpresent').2
  exact hne (List.cons.inj (Node.path_eq hone (heq ▸ htwo))).1

end

/-- Places below different places of one length are different. -/
theorem suffix_unique {first second below : List ℕ} (hfirst : first <:+ below)
    (hsecond : second <:+ below) (hlength : first.length = second.length) : first = second :=
  (List.suffix_of_suffix_length_le hfirst hsecond hlength.le).eq_of_length hlength

section Tables

variable (h : Isolated memory role) (hprivate : root ≠ memory.kernelPageDirectory)
include h hprivate

/-- The frames that go with a table: its own and those of its pages. -/
def TableFrames (memory : Ram) (entry : Entry) (frame : UInt32) : Prop :=
  (∃ page ∈ presentEntries entry.physical memory, frame = page.physical) ∨ frame = entry.physical

theorem releaseTable_reclaims (hrole : role entry.physical = some ⟨root, path⟩)
    (hlevel : memory.mode.level path = .table) {pmm : Pmm}
    (hsame : Pmm.SameOn (TableFrames memory entry) memory.pmm pmm) :
    pmm.Reclaims (TableFrames memory entry) (releaseTable memory pmm entry) := by
  have hpage : ∀ page ∈ presentEntries entry.physical memory, page.user = true ∧
      memory.pmm.Mapped page.physical ∧ page.physical ≠ entry.physical := by
    intro page hmem
    obtain ⟨slot, hslot, rfl, hpresent⟩ := mem_presentEntries.1 hmem
    obtain ⟨huser, hpageRole⟩ := role_of_mem_presentEntries h hprivate hrole hlevel hslot hpresent
    have hpageLevel := level_page_of_table slot hlevel
    exact ⟨huser, h.page _ _ hpageRole hpageLevel, fun heq ↦
      List.cons_ne_self slot path (Node.path_eq (heq ▸ hpageRole) hrole)⟩
  have hpages : pmm.Reclaims (fun frame ↦ ∃ page ∈ presentEntries entry.physical memory,
      frame = page.physical) ((presentEntries entry.physical memory).foldl
        (fun pmm entry ↦ releasePage entry pmm) pmm) := by
    refine Pmm.reclaims_foldl _ (fun (page : Entry) frame ↦ frame = page.physical) _ ?_ ?_
    · intro page hmem other hother
      obtain ⟨huser, hmapped, -⟩ := hpage page hmem
      rw [releasePage, if_pos huser]
      refine pmmFreeBlock_release_reclaims ?_
      rw [(hother _ rfl).2, (hsame _ (.inl ⟨page, hmem, rfl⟩)).2]
      exact hmapped
    · exact presentEntries_pairwise h hprivate hrole hlevel
  refine hpages.trans (pmmFreeBlock_reclaims ?_ ?_)
  · rw [hpages.held, (hsame _ (.inr rfl)).1]
    refine ⟨h.held _ _ hrole, ?_⟩
    rintro ⟨page, hmem, heq⟩
    exact (hpage page hmem).2.2 heq.symm
  · rw [hpages.mapped, (hsame _ (.inr rfl)).2]
    refine fun hmapped ↦ h.not_mapped hrole ?_ hmapped.1
    rw [hlevel]
    simp

/-- The frames that go with a directory. -/
def DirectoryFrames (memory : Ram) (pair : UInt32 × UInt32) (frame : UInt32) : Prop :=
  (∃ entry ∈ ownTables pair memory, TableFrames memory entry frame) ∨
    memory.mode = .pae ∧ frame = pair.1

/-- The frames of a table are below its place. -/
theorem role_of_tableFrames (hrole : role entry.physical = some ⟨root, path⟩)
    (hlevel : memory.mode.level path = .table) {frame : UInt32}
    (hframe : TableFrames memory entry frame) :
    ∃ below, role frame = some ⟨root, below⟩ ∧ path <:+ below := by
  rcases hframe with ⟨page, hmem, rfl⟩ | rfl
  · obtain ⟨slot, hslot, rfl, hpresent⟩ := mem_presentEntries.1 hmem
    exact ⟨slot :: path, (role_of_mem_presentEntries h hprivate hrole hlevel hslot hpresent).2,
      List.suffix_cons slot path⟩
  · exact ⟨path, hrole, List.suffix_refl path⟩

/-- The frames of two tables of one directory are different. -/
theorem tableFrames_disjoint {first second : Entry} {one two : List ℕ}
    (hfirst : role first.physical = some ⟨root, one⟩) (hone : memory.mode.level one = .table)
    (hsecond : role second.physical = some ⟨root, two⟩) (htwo : memory.mode.level two = .table)
    (hlength : one.length = two.length) (hne : one ≠ two) {frame : UInt32}
    (hframe : TableFrames memory first frame) : ¬TableFrames memory second frame := by
  intro hother
  obtain ⟨below, hbelow, hsuffix⟩ := role_of_tableFrames h hprivate hfirst hone hframe
  obtain ⟨under, hunder, hsuffix'⟩ := role_of_tableFrames h hprivate hsecond htwo hother
  exact hne (suffix_unique hsuffix (Node.path_eq hunder hbelow ▸ hsuffix') hlength)

end Tables

section Directory

variable {pair : UInt32 × UInt32} {path : List ℕ}

/-- The own tables of a directory are different, and so are their pages. -/
theorem ownTables_pairwise (h : Isolated memory role) (hprivate : root ≠ memory.kernelPageDirectory)
    (hrole : role pair.1 = some ⟨root, path⟩) (hlevel : memory.mode.level path = .directory)
    (huser : ∀ entry ∈ ownTables pair memory, entry.user = true) :
    (ownTables pair memory).Pairwise fun earlier later ↦
      ∀ frame, TableFrames memory later frame → ¬TableFrames memory earlier frame := by
  have hat : ∀ slot ∈ destroyedSlots memory.mode, ∀ entry,
      ownTableAt pair memory slot = some entry →
      role entry.physical = some ⟨root, slot :: path⟩ := fun slot hslot entry hentry ↦
    role_of_ownTableAt h hrole hlevel hslot hentry
      (huser entry (List.mem_filterMap.2 ⟨slot, hslot, hentry⟩))
  rw [ownTables, List.pairwise_filterMap]
  refine List.Pairwise.imp_of_mem ?_ (nodup_destroyedSlots memory.mode)
  intro first second hfirst hsecond hne one hone two htwo frame hframe
  refine tableFrames_disjoint h hprivate (hat second hsecond two htwo)
    (level_table_of_directory second hlevel) (hat first hfirst one hone)
    (level_table_of_directory first hlevel) rfl ?_ hframe
  intro hpath
  injection hpath with hslot _
  exact hne hslot.symm

/-- An own table of a directory is below it in the tree. -/
theorem role_of_mem_ownTables (h : Isolated memory role) (hrole : role pair.1 = some ⟨root, path⟩)
    (hlevel : memory.mode.level path = .directory)
    (huser : ∀ entry ∈ ownTables pair memory, entry.user = true) {entry : Entry}
    (hentry : entry ∈ ownTables pair memory) :
    ∃ slot ∈ destroyedSlots memory.mode, role entry.physical = some ⟨root, slot :: path⟩ ∧
      memory.mode.level (slot :: path) = .table := by
  obtain ⟨slot, hslot, hsome⟩ := List.mem_filterMap.1 hentry
  exact ⟨slot, hslot, role_of_ownTableAt h hrole hlevel hslot hsome (huser entry hentry),
    level_table_of_directory slot hlevel⟩

section

variable (h : Isolated memory role) (hprivate : root ≠ memory.kernelPageDirectory)
  (hrole : role pair.1 = some ⟨root, path⟩) (hlevel : memory.mode.level path = .directory)
include h hprivate hrole hlevel

section

variable (huser : ∀ entry ∈ ownTables pair memory, entry.user = true)
include huser

/-- A directory is not among its tables and their pages. -/
theorem not_tableFrames_of_directory {entry : Entry} (hentry : entry ∈ ownTables pair memory) :
    ¬TableFrames memory entry pair.1 := by
  intro hframe
  obtain ⟨slot, -, hentryRole, hentryLevel⟩ := role_of_mem_ownTables h hrole hlevel huser hentry
  obtain ⟨below, hbelow, hsuffix⟩ := role_of_tableFrames h hprivate hentryRole hentryLevel hframe
  have hlength := hsuffix.length_le
  rw [← Node.path_eq hrole hbelow, List.length_cons] at hlength
  omega

theorem releaseDirectory_reclaims {pmm : Pmm}
    (hsame : Pmm.SameOn (DirectoryFrames memory pair) memory.pmm pmm) :
    pmm.Reclaims (DirectoryFrames memory pair) (releaseDirectory memory pmm pair) := by
  have htables : pmm.Reclaims (fun frame ↦ ∃ entry ∈ ownTables pair memory,
      TableFrames memory entry frame)
        ((ownTables pair memory).foldl (releaseTable memory) pmm) := by
    refine Pmm.reclaims_foldl _ (TableFrames memory) _ ?_ ?_
    · intro entry hentry other hother
      obtain ⟨slot, -, hentryRole, hentryLevel⟩ := role_of_mem_ownTables h hrole hlevel huser hentry
      refine releaseTable_reclaims h hprivate hentryRole hentryLevel ?_
      intro frame hframe
      obtain ⟨hheld, hmapped⟩ := hother frame hframe
      obtain ⟨hheld', hmapped'⟩ := hsame frame (.inl ⟨entry, hentry, hframe⟩)
      exact ⟨hheld.trans hheld', hmapped.trans hmapped'⟩
    · exact ownTables_pairwise h hprivate hrole hlevel huser
  unfold releaseDirectory DirectoryFrames
  cases hmode : memory.mode with
  | legacy => exact htables.congr fun frame ↦ by simp
  | pae =>
    obtain ⟨hheld, hmapped⟩ := hsame pair.1 (.inr ⟨hmode, rfl⟩)
    refine (htables.trans (pmmFreeBlock_reclaims ?_ ?_)).congr fun frame ↦ by simp
    · rw [htables.held, hheld]
      refine ⟨h.held _ _ hrole, ?_⟩
      rintro ⟨entry, hentry, hframe⟩
      exact not_tableFrames_of_directory h hprivate hrole hlevel huser hentry hframe
    · rw [htables.mapped, hmapped]
      refine fun hboth ↦ h.not_mapped hrole ?_ hboth.1
      rw [hlevel]
      simp

/-- The frames of a directory are below its place, and not at the root of the tree. -/
theorem role_of_directoryFrames {frame : UInt32} (hframe : DirectoryFrames memory pair frame) :
    ∃ below, role frame = some ⟨root, below⟩ ∧ path <:+ below ∧ below ≠ [] := by
  rcases hframe with ⟨entry, hentry, hframe⟩ | ⟨hmode, rfl⟩
  · obtain ⟨slot, -, hentryRole, hentryLevel⟩ := role_of_mem_ownTables h hrole hlevel huser hentry
    obtain ⟨below, hbelow, hsuffix⟩ := role_of_tableFrames h hprivate hentryRole hentryLevel hframe
    refine ⟨below, hbelow, (List.suffix_cons slot path).trans hsuffix, ?_⟩
    rintro rfl
    exact List.cons_ne_nil slot path (List.suffix_nil.1 hsuffix)
  · refine ⟨path, hrole, List.suffix_refl path, ?_⟩
    rintro rfl
    rw [hmode] at hlevel
    cases hlevel

end

end

end Directory

/-- The frames that the destruction of a space gives back. -/
def SpaceFrames (memory : Ram) (root frame : UInt32) : Prop :=
  (∃ pair ∈ ownDirectories root memory, DirectoryFrames memory pair frame) ∨ frame = root

/-- The tables that the destruction of a space looks at are the user's. -/
def TablesReleasable (memory : Ram) (root : UInt32) : Prop :=
  ∀ pair ∈ ownDirectories root memory, ∀ entry ∈ ownTables pair memory, entry.user = true

section

variable (h : Isolated memory role) (hroot : memory.IsRoot root)
  (hprivate : root ≠ memory.kernelPageDirectory) (huser : TablesReleasable memory root)
include h hroot hprivate huser

/-- The own directories of a space have different frames. -/
theorem ownDirectories_pairwise :
    (ownDirectories root memory).Pairwise fun earlier later ↦
      ∀ frame, DirectoryFrames memory later frame → ¬DirectoryFrames memory earlier frame := by
  cases hmode : memory.mode with
  | legacy =>
    simp only [ownDirectories, hmode]
    exact List.pairwise_singleton _ _
  | pae =>
    have hmem : ∀ index ∈ List.range paePdpEntries, ∀ pair,
        ownDirectoryAt root memory index = some pair →
        pair ∈ ownDirectories root memory ∧ role pair.1 = some ⟨root, [index]⟩ := by
      intro index hindex pair hsome
      refine ⟨?_, ?_⟩
      · simp only [ownDirectories, hmode]
        exact List.mem_filterMap.2 ⟨index, hindex, hsome⟩
      · obtain ⟨rfl, hne, -⟩ := ownDirectoryAt_eq_some.1 hsome
        exact ((h.paePageDirectoryFor_cases hmode hroot (List.mem_range.1 hindex)).resolve_left
          fun hzero ↦ hne hzero.1).2.2
    have hlevel : ∀ index, memory.mode.level [index] = .directory := by
      intro index
      rw [hmode]
      rfl
    have hunfold : ownDirectories root memory =
        (List.range paePdpEntries).filterMap (ownDirectoryAt root memory) := by
      simp only [ownDirectories, hmode]
    rw [hunfold, List.pairwise_filterMap]
    refine List.Pairwise.imp_of_mem ?_ List.nodup_range
    intro first second hfirst hsecond hne one hone two htwo frame hframe hother
    obtain ⟨honeMem, honeRole⟩ := hmem first hfirst one hone
    obtain ⟨htwoMem, htwoRole⟩ := hmem second hsecond two htwo
    obtain ⟨below, hbelow, hsuffix, -⟩ := role_of_directoryFrames h hprivate htwoRole
      (hlevel second) (huser two htwoMem) hframe
    obtain ⟨under, hunder, hsuffix', -⟩ := role_of_directoryFrames h hprivate honeRole
      (hlevel first) (huser one honeMem) hother
    rw [Node.path_eq hunder hbelow] at hsuffix'
    exact hne (List.cons.inj (suffix_unique hsuffix' hsuffix rfl)).1

/-- The root of a space is not among the frames of its directories. -/
theorem not_directoryFrames_of_root (hpair : pair ∈ ownDirectories root memory) :
    ¬DirectoryFrames memory pair root := by
  intro hframe
  obtain ⟨path, hrole, hlevel, -⟩ := mem_ownDirectories h hroot hpair
  obtain ⟨below, hbelow, -, hne⟩ := role_of_directoryFrames h hprivate hrole hlevel
    (huser pair hpair) hframe
  exact hne (Node.path_eq hbelow (h.typed.top root hroot))

theorem release_reclaims :
    memory.pmm.Reclaims (SpaceFrames memory root)
      (pmmFreeBlock root
        ((ownDirectories root memory).foldl (releaseDirectory memory) memory.pmm)) := by
  have hdirectories : memory.pmm.Reclaims
      (fun frame ↦ ∃ pair ∈ ownDirectories root memory, DirectoryFrames memory pair frame)
      ((ownDirectories root memory).foldl (releaseDirectory memory) memory.pmm) := by
    refine Pmm.reclaims_foldl _ (DirectoryFrames memory) _ ?_ ?_
    · intro pair hpair other hother
      obtain ⟨path, hrole, hlevel, -⟩ := mem_ownDirectories h hroot hpair
      exact releaseDirectory_reclaims h hprivate hrole hlevel (huser pair hpair) hother
    · exact ownDirectories_pairwise h hroot hprivate huser
  have htop := h.typed.top root hroot
  have hnot : ¬∃ pair ∈ ownDirectories root memory, DirectoryFrames memory pair root := by
    rintro ⟨pair, hpair, hframe⟩
    exact not_directoryFrames_of_root h hroot hprivate huser hpair hframe
  refine hdirectories.trans (pmmFreeBlock_reclaims ?_ ?_)
  · rw [hdirectories.held]
    exact ⟨h.held _ _ htop, hnot⟩
  · rw [hdirectories.mapped]
    refine fun hboth ↦ h.not_mapped htop ?_ hboth.1
    cases memory.mode <;> simp [Mode.level]

end

/-- Every directory of the tree is gone through. -/
theorem exists_ownDirectory (h : Isolated memory role)
    (hprivate : root ≠ memory.kernelPageDirectory) {directory : UInt32}
    (hrole : role directory = some ⟨root, path⟩) (hlevel : memory.mode.level path = .directory) :
    ∃ pair ∈ ownDirectories root memory, pair.1 = directory ∧
      (pair.2 = 0 ∨ role pair.2 = some ⟨memory.kernelPageDirectory, path⟩) := by
  have hroot := h.typed.root_mem hrole
  have hkernel : memory.IsRoot memory.kernelPageDirectory := .inl rfl
  unfold ownDirectories
  rcases mode_of_level_directory hlevel with ⟨hmode, rfl⟩ | ⟨hmode, index, rfl⟩ <;> rw [hmode]
  · obtain ⟨rfl, -⟩ := h.typed.top_inv directory root hrole
    exact ⟨_, List.mem_singleton_self _, rfl, .inr (h.typed.top _ hkernel)⟩
  · obtain ⟨-, -, hlinks, -⟩ := h.typed.up directory (.top root) index hrole
    have hindex : index < paePdpEntries := by
      simp only [discipline, hmode] at hlinks
      exact hlinks
    obtain ⟨hne, hphysical, hown⟩ :=
      (h.paePageDirectoryFor_cases hmode hroot hindex).resolve_left fun hzero ↦
        hzero.2 directory hrole
    have hdirectory := h.typed.injective hown hrole
    have hcases := h.paePageDirectoryFor_cases hmode hkernel hindex
    refine ⟨_, List.mem_filterMap.2 ⟨index, List.mem_range.2 hindex,
      ownDirectoryAt_eq_some.2 ⟨rfl, hne, ?_⟩⟩, hdirectory,
      hcases.imp And.left fun hsome ↦ hsome.2.2⟩
    -- The kernel's directory at the same place is another frame.
    intro hkernelNe hshared
    obtain ⟨-, hkernelPhysical, hkernelRole⟩ := hcases.resolve_left fun hzero ↦ hkernelNe hzero.1
    rw [hkernelPhysical, ← hshared, ← hphysical, hown] at hkernelRole
    cases hkernelRole
    exact hprivate rfl

theorem mem_destroyedSlots_of_userRegion (hslot : slot < mode.slots)
    (hregion : mode.userRegion path slot) :
    slot ∈ destroyedSlots mode := by
  match mode, path with
  | .legacy, [] =>
    simp only [Mode.userRegion] at hregion
    simp only [destroyedSlots, List.mem_range'_1]
    omega
  | .legacy, _ :: _ => exact hregion.elim
  | .pae, _ => exact List.mem_range.2 hslot

/-- Every table of the tree is gone through. -/
theorem exists_ownTable (h : Isolated memory role) (hprivate : root ≠ memory.kernelPageDirectory)
    (hrole : role table = some ⟨root, slot :: path⟩)
    (hlevel : memory.mode.level path = .directory) :
    ∃ pair ∈ ownDirectories root memory, ∃ entry ∈ ownTables pair memory,
      entry.physical = table := by
  obtain ⟨directory, hdirectory, hlinks, hpresent, htarget⟩ :=
    h.typed.up table ⟨root, path⟩ slot hrole
  simp only [discipline, hlevel] at hlinks
  have hregion := hlinks.2.resolve_left hprivate
  obtain ⟨pair, hpair, rfl, hkernel⟩ := exists_ownDirectory h hprivate hdirectory hlevel
  refine ⟨pair, hpair, memory.entry pair.1 slot, List.mem_filterMap.2
    ⟨slot, mem_destroyedSlots_of_userRegion hlinks.1 hregion, ?_⟩, htarget⟩
  refine ownTableAt_eq_some.2 ⟨rfl, hpresent, fun hne hkernelPresent ↦ ?_⟩
  have hkernelRole := hkernel.resolve_left hne
  have hadmits := h.typed.admits _ _ _ hkernelRole hkernelPresent
  simp only [discipline, hlevel] at hadmits
  exact absurd hregion ((hadmits hlinks.1).2 trivial)

/-- What a destroyed space gives back is what its tree has. -/
theorem spaceFrames_iff (h : Isolated memory role) (hroot : memory.IsRoot root)
    (hprivate : root ≠ memory.kernelPageDirectory) (huser : TablesReleasable memory root)
    (frame : UInt32) : SpaceFrames memory root frame ↔ FrameOf role root frame := by
  constructor
  · rintro (⟨pair, hpair, hframe⟩ | rfl)
    · obtain ⟨path, hrole, hlevel, -⟩ := mem_ownDirectories h hroot hpair
      obtain ⟨below, hbelow, -⟩ := role_of_directoryFrames h hprivate hrole hlevel
        (huser pair hpair) hframe
      exact ⟨_, hbelow, rfl⟩
    · exact ⟨_, h.typed.top _ hroot, rfl⟩
  · rintro ⟨⟨_, path⟩, hrole, rfl⟩
    cases path with
    | nil => exact .inr (h.typed.top_inv frame _ hrole).1
    | cons slot rest =>
      obtain ⟨parent, hparent, hlinks, hpresent, htarget⟩ := h.typed.up frame ⟨_, rest⟩ slot hrole
      cases hlevel : memory.mode.level rest with
      | root =>
        obtain ⟨hmode, rfl⟩ := mode_of_level_root hlevel
        have hdirectory : memory.mode.level [slot] = .directory := by
          rw [hmode]
          rfl
        obtain ⟨pair, hpair, heq, -⟩ := exists_ownDirectory h hprivate hrole hdirectory
        exact .inl ⟨pair, hpair, .inr ⟨hmode, heq.symm⟩⟩
      | directory =>
        obtain ⟨pair, hpair, entry, hentry, heq⟩ := exists_ownTable h hprivate hrole hlevel
        exact .inl ⟨pair, hpair, .inl ⟨entry, hentry, .inr heq.symm⟩⟩
      | table =>
        obtain ⟨upper, above, rfl, habove⟩ := exists_of_level_table hlevel
        obtain ⟨pair, hpair, entry, hentry, rfl⟩ := exists_ownTable h hprivate hparent habove
        simp only [discipline, hlevel] at hlinks
        refine .inl ⟨pair, hpair, .inl ⟨entry, hentry, .inl ⟨memory.entry entry.physical slot,
          mem_presentEntries.2 ⟨slot, hlinks.1, rfl, hpresent⟩, htarget.symm⟩⟩⟩
      | page =>
        simp only [discipline, hlevel] at hlinks

/-- A destroyed space: its frames are free and it is no longer registered. -/
structure Destroys (root : UInt32) (memory : Ram) (role : UInt32 → Option Place) (after : Ram) :
    Prop where
  registered : root ∈ memory.addressSpaces
  notCurrent : root ≠ memory.pageDirectory
  state : after.toPagingState =
    { memory.toPagingState with addressSpaces := unregister root memory.addressSpaces }
  frames : after.frames = memory.frames
  reclaims : memory.pmm.Reclaims (FrameOf role root) after.pmm
  isolated : Isolated after (without role root)

/-- A space is destroyed whole, or the call leaves everything as it was. -/
theorem pagingDestroyAddressSpace_spec (h : Isolated memory role) (root : UInt32) :
    pagingDestroyAddressSpace root memory = (false, memory) ∨
    (pagingDestroyAddressSpace root memory).1 = true ∧
      Destroys root memory role (pagingDestroyAddressSpace root memory).2 := by
  unfold pagingDestroyAddressSpace
  split
  · exact .inl rfl
  next hchecks =>
  simp only [not_or, Bool.not_eq_false] at hchecks
  obtain ⟨hprivate, hcurrent, hvalid⟩ := hchecks
  have hroot := (pagingAddressSpaceIsValid_iff h).1 hvalid
  have hmem : root ∈ memory.addressSpaces := hroot.resolve_left hprivate
  dsimp only
  split
  · next hpreflight =>
    have huser : TablesReleasable memory root := by
      intro pair hpair entry hentry
      rw [List.all_eq_true] at hpreflight
      have htables := hpreflight pair hpair
      rw [List.all_eq_true] at htables
      have hentryOk := htables entry hentry
      rw [tableCanBeReleased, Bool.and_eq_true] at hentryOk
      exact hentryOk.1
    have hreclaims := (release_reclaims h hroot hprivate huser).congr
      (spaceFrames_iff h hroot hprivate huser)
    refine .inr ⟨rfl, hmem, hcurrent, rfl, rfl, hreclaims, ?_⟩
    exact h.uproot hprivate hcurrent rfl (fun other ↦ mem_unregister h.spaces hmem)
      (nodup_unregister h.spaces hmem) rfl hreclaims
  · exact .inl rfl

end Destroy

end EfesOS.Memory
