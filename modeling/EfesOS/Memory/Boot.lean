import EfesOS.Memory.Spaces

/-!
# Turning paging on

`paging_init` builds the tree of the kernel: the first four megabytes mapped to themselves, the
framebuffer if there is one, the code and the constants of the kernel read-only. Whatever the
allocator hands out and whatever is in memory, a call that succeeds leaves the one tree it made
isolated, in use and without a process (`pagingInit_boots`).
-/

set_option autoImplicit false

namespace EfesOS.Memory

open EfesOS.Foundation.PageTree

/-- What is read of `struct cpu_features`. -/
structure CpuFeatures where
  pae : Bool
  nx : Bool

/-- The addresses that the linker script gives. -/
structure KernelImage where
  textStart : UInt32
  textEnd : UInt32
  rodataEnd : UInt32

/-- The static variables before a directory is chosen. -/
def unpaged (mode : Mode) (nxEnabled : Bool) (pmm : Pmm) (frames : UInt32 → Page) : Ram where
  mode := mode
  paeNxEnabled := nxEnabled
  pagingEnabled := false
  pageDirectory := 0
  kernelPageDirectory := 0
  addressSpaces := []
  pmm := pmm
  frames := frames
  actions := []

/-- Memory with a directory that is the kernel's and in use. -/
def Ram.startingFrom (root : UInt32) (memory : Ram) : Ram :=
  { memory with pageDirectory := root, kernelPageDirectory := root, addressSpaces := [] }

/-- Give back what was handed out of a list of requests. -/
def freeTaken (taken : List UInt32) (pmm : Pmm) : Pmm :=
  (taken.filter (· ≠ 0)).foldl (fun pmm frame ↦ pmmFreeBlock frame pmm) pmm

/-- The entry that maps a page of the kernel to the frame at its own address. -/
def identityEntry (mode : Mode) (nxEnabled : Bool) (page : ℕ) : Entry where
  low := UInt32.ofNat page * pageSize ||| pagePresent ||| pageFlagWritable
  high := match mode with
    | .legacy => 0
    | .pae => if nxEnabled then paeNx else 0

/-- Fill slots of a table with the pages from a first one on. -/
def mapIdentity (table : UInt32) (first : ℕ) (slots : List ℕ) (memory : Ram) : Ram :=
  slots.foldl (fun memory slot ↦ memory.setEntry table slot
    (identityEntry memory.mode memory.paeNxEnabled (first + slot))) memory

def framebufferPage (index : ℕ) : UInt32 := vbeFramebufferVirtual + UInt32.ofNat index * pageSize

/-- Map pages of the framebuffer, up to the first that cannot be mapped. -/
def mapFramebuffer : List ℕ → Ram → Option ℕ × Ram
  | [], memory => (none, memory)
  | index :: rest, memory =>
    let (mapped, memory) :=
      pagingMapPage (framebufferPage index) (framebufferPage index) pageFlagWritable memory
    if mapped then mapFramebuffer rest memory else (some index, memory)

/-- The pages of the framebuffer, unless the boot information has none. -/
def framebufferPages (fontAvailable : Bool) : List ℕ :=
  if fontAvailable then List.range vbeFramebufferPages else []

def roundUpToPage (address : UInt32) : UInt32 := (address + pageSize - 1) &&& pageAddressMask

/-- The entry of a page of the kernel's code or constants. -/
def readOnlyEntry (textEnd address : UInt32) (state : PagingState) (entry : Entry) : Entry :=
  match state.mode with
  | .legacy => { entry with low := entry.low &&& ~~~pageFlagWritable }
  | .pae =>
    if address < textEnd then
      ⟨entry.low &&& ~~~pageFlagWritable ||| pageFlagExecutable, entry.high &&& ~~~paeNx⟩
    else
      ⟨entry.low &&& ~~~pageFlagExecutable,
        entry.high &&& ~~~paeNx ||| (if state.paeNxEnabled then paeNx else 0)⟩

def protectKernelPage (image : KernelImage) (memory : Ram) (address : UInt32) : Ram :=
  let table := getPageTable address memory
  let index := memory.mode.tableIndex address
  memory.setEntry table index (readOnlyEntry (roundUpToPage image.textEnd) address
    memory.toPagingState (memory.entry table index))

def protectKernelReadOnly (image : KernelImage) (memory : Ram) : Ram :=
  (pagesBetween image.textStart (roundUpToPage image.rodataEnd)).foldl (protectKernelPage image)
    memory

def enablePaging (memory : Ram) : Ram :=
  { memory with pagingEnabled := true, actions := .loadCr3 memory.pageDirectory :: memory.actions }

/-- What `pae_init` stores before it maps the framebuffer. -/
def paeBuildKernel (pdpt directory first second : UInt32) (memory : Ram) : Ram :=
  let cleared :=
    (((memory.clearFrame pdpt).clearFrame directory).clearFrame first).clearFrame second
  let linked := ((cleared.setEntry pdpt 0 (directoryEntry directory)).setEntry directory 0
    (tableEntry first 0)).setEntry directory 1 (tableEntry second 0)
  mapIdentity second 512 (List.range 512) (mapIdentity first 0 (List.range' 1 511) linked)

def paeInit (image : KernelImage) (fontAvailable nxEnabled : Bool) (pmm : Pmm)
    (frames : UInt32 → Page) : Bool × Ram :=
  let (pdpt, pmm) := pmmAllocBlockBelow lowIdentityLimit pmm
  let (directory, pmm) := pmmAllocBlockBelow lowIdentityLimit pmm
  let (first, pmm) := pmmAllocBlockBelow lowIdentityLimit pmm
  let (second, pmm) := pmmAllocBlockBelow lowIdentityLimit pmm
  if pdpt = 0 ∨ directory = 0 ∨ first = 0 ∨ second = 0 then
    (false, unpaged .pae nxEnabled (freeTaken [pdpt, directory, first, second] pmm) frames)
  else
    let built := paeBuildKernel pdpt directory first second
      ((unpaged .pae nxEnabled pmm frames).startingFrom pdpt)
    let (failed, mapped) := mapFramebuffer (framebufferPages fontAvailable) built
    match failed with
    | some _ => (false, mapped)
    | none => (true, enablePaging (protectKernelReadOnly image mapped))

/-- What `paging_init` stores in the short format before it maps the framebuffer. -/
def legacyBuildKernel (directory identity : UInt32) (memory : Ram) : Ram :=
  let cleared := (memory.clearFrame directory).clearFrame identity
  (mapIdentity identity 0 (List.range' 1 1023) cleared).setEntry directory 0
    (tableEntry identity 0)

/-- The framebuffer cannot be mapped: everything goes back. -/
def legacyUndo (directory identity : UInt32) (mapped : ℕ) (memory : Ram) : Ram :=
  let unmapped := (List.range mapped).reverse.foldl
    (fun memory index ↦ (pagingUnmapPage (framebufferPage index) memory).2) memory
  { unmapped.onPmm fun pmm ↦ pmmFreeBlock directory (pmmFreeBlock identity pmm) with
    pageDirectory := 0 }

def legacyInit (image : KernelImage) (fontAvailable : Bool) (pmm : Pmm)
    (frames : UInt32 → Page) : Bool × Ram :=
  let (directory, pmm) := pmmAllocBlockBelow lowIdentityLimit pmm
  let (identity, pmm) := pmmAllocBlockBelow lowIdentityLimit pmm
  if directory = 0 ∨ identity = 0 then
    (false, unpaged .legacy false (freeTaken [directory, identity] pmm) frames)
  else
    let built := legacyBuildKernel directory identity
      ((unpaged .legacy false pmm frames).startingFrom directory)
    let (failed, mapped) := mapFramebuffer (framebufferPages fontAvailable) built
    match failed with
    | some index => (false, legacyUndo directory identity index mapped)
    | none => (true, enablePaging (protectKernelReadOnly image mapped))

def pagingInit (features : CpuFeatures) (image : KernelImage) (fontAvailable : Bool) (pmm : Pmm)
    (frames : UInt32 → Page) : Bool × Ram :=
  if features.pae then paeInit image fontAvailable features.nx pmm frames
  else legacyInit image fontAvailable pmm frames

/-! ### The first tree -/

section Built

variable {memory : Ram}

theorem mapIdentity_keeps (table : UInt32) (first : ℕ) (slots : List ℕ) (memory : Ram) :
    (mapIdentity table first slots memory).toPagingState = memory.toPagingState ∧
      (mapIdentity table first slots memory).pmm = memory.pmm := by
  induction slots generalizing memory with
  | nil => exact ⟨rfl, rfl⟩
  | cons slot rest ih =>
    exact ⟨(ih _).1.trans (Ram.toPagingState_setEntry _ _ _),
      (ih _).2.trans (Ram.pmm_setEntry _ _ _)⟩

/-- What is in memory after pages were mapped to themselves. -/
theorem entry_mapIdentity (table : UInt32) (first : ℕ) (slots : List ℕ) (memory : Ram)
    (frame : UInt32) (index : ℕ) :
    (mapIdentity table first slots memory).entry frame index =
      if frame = table ∧ index ∈ slots then
        identityEntry memory.mode memory.paeNxEnabled (first + index)
      else memory.entry frame index := by
  induction slots generalizing memory with
  | nil => simp [mapIdentity]
  | cons slot rest ih =>
    have hnarrow : memory.mode = .legacy →
        (identityEntry memory.mode memory.paeNxEnabled (first + slot)).high = 0 := by
      intro hmode
      rw [hmode]
      rfl
    have hrest := ih (memory.setEntry table slot
      (identityEntry memory.mode memory.paeNxEnabled (first + slot)))
    rw [Ram.toPagingState_setEntry] at hrest
    refine hrest.trans ?_
    by_cases hplace : frame = table ∧ index = slot
    · obtain ⟨rfl, rfl⟩ := hplace
      rw [Ram.entry_setEntry hnarrow, ite_self, if_pos ⟨rfl, List.mem_cons_self⟩]
    · rw [Ram.entry_setEntry_of_ne _ hplace]
      refine if_congr ?_ rfl rfl
      rw [List.mem_cons]
      exact and_congr_right fun heq ↦ ⟨.inr, fun hmem ↦ hmem.resolve_left fun hslot ↦
        hplace ⟨heq, hslot⟩⟩

theorem entry_clearFrame_eq (cleared frame : UInt32) (index : ℕ) (memory : Ram) :
    (memory.clearFrame cleared).entry frame index =
      if frame = cleared then .absent else memory.entry frame index := by
  split_ifs with heq
  · rw [heq, Ram.entry_clearFrame]
  · exact Ram.entry_congr (by rfl) (Ram.frames_clearFrame_of_ne heq) index

theorem entry_setEntry_eq {parent : UInt32} {slot : ℕ} {entry : Entry} (hnarrow : entry.high = 0)
    (memory : Ram) (frame : UInt32) (index : ℕ) :
    (memory.setEntry parent slot entry).entry frame index =
      if frame = parent ∧ index = slot then entry else memory.entry frame index := by
  split_ifs with hplace
  · rw [hplace.1, hplace.2, Ram.entry_setEntry fun _ ↦ hnarrow]
  · exact Ram.entry_setEntry_of_ne _ hplace

/-- The entries of the tree that is built in the two-level format. -/
def legacyEntry (directory identity : UInt32) (memory : Ram) (frame : UInt32) (index : ℕ) : Entry :=
  if frame = directory ∧ index = 0 then tableEntry identity 0
  else if frame = identity ∧ 1 ≤ index ∧ index < 1024 then
    identityEntry memory.mode memory.paeNxEnabled index
  else if frame = identity then .absent
  else if frame = directory then .absent
  else memory.entry frame index

theorem legacyEntry_directory {directory identity : UInt32}
    (hne : identity ≠ directory) (index : ℕ) :
    legacyEntry directory identity memory directory index =
      if index = 0 then tableEntry identity 0 else .absent := by
  by_cases hzero : index = 0 <;> simp [legacyEntry, hzero, hne.symm]

theorem legacyEntry_identity {directory identity : UInt32} (hne : identity ≠ directory)
    (index : ℕ) : legacyEntry directory identity memory identity index =
      if 1 ≤ index ∧ index < 1024 then identityEntry memory.mode memory.paeNxEnabled index
      else .absent := by
  simp [legacyEntry, hne]

theorem entry_legacyBuildKernel (directory identity : UInt32) (memory : Ram) (frame : UInt32)
    (index : ℕ) : (legacyBuildKernel directory identity memory).entry frame index =
      legacyEntry directory identity memory frame index := by
  unfold legacyBuildKernel legacyEntry
  simp only [entry_setEntry_eq (rfl : (tableEntry identity 0).high = 0), entry_mapIdentity,
    entry_clearFrame_eq, List.mem_range'_1, Nat.zero_add]
  rfl

/-- The entries of the tree that is built in the three-level format. -/
def paeEntry (pdpt directory first second : UInt32) (memory : Ram) (frame : UInt32) (index : ℕ) :
    Entry :=
  if frame = second ∧ index < 512 then
    identityEntry memory.mode memory.paeNxEnabled (512 + index)
  else if frame = first ∧ 1 ≤ index ∧ index < 512 then
    identityEntry memory.mode memory.paeNxEnabled index
  else if frame = directory ∧ index = 1 then tableEntry second 0
  else if frame = directory ∧ index = 0 then tableEntry first 0
  else if frame = pdpt ∧ index = 0 then directoryEntry directory
  else if frame = second then .absent
  else if frame = first then .absent
  else if frame = directory then .absent
  else if frame = pdpt then .absent
  else memory.entry frame index

section

variable {pdpt directory first second : UInt32}
  (hdistinct : [pdpt, directory, first, second].Nodup) (index : ℕ)

include hdistinct

theorem paeEntry_pdpt : paeEntry pdpt directory first second memory pdpt index =
    if index = 0 then directoryEntry directory else .absent := by
  simp only [List.nodup_cons, List.mem_cons, List.not_mem_nil, not_or, or_false] at hdistinct
  simp [paeEntry, hdistinct]

theorem paeEntry_directory : paeEntry pdpt directory first second memory directory index =
    if index = 1 then tableEntry second 0 else if index = 0 then tableEntry first 0
    else .absent := by
  simp only [List.nodup_cons, List.mem_cons, List.not_mem_nil, not_or, or_false] at hdistinct
  simp [paeEntry, hdistinct, Ne.symm hdistinct.1.1]

theorem paeEntry_first : paeEntry pdpt directory first second memory first index =
    if 1 ≤ index ∧ index < 512 then identityEntry memory.mode memory.paeNxEnabled index
    else .absent := by
  simp only [List.nodup_cons, List.mem_cons, List.not_mem_nil, not_or, or_false] at hdistinct
  simp [paeEntry, hdistinct, Ne.symm hdistinct.1.2.1, Ne.symm hdistinct.2.1.1]

theorem paeEntry_second : paeEntry pdpt directory first second memory second index =
    if index < 512 then identityEntry memory.mode memory.paeNxEnabled (512 + index)
    else .absent := by
  simp only [List.nodup_cons, List.mem_cons, List.not_mem_nil, not_or, or_false] at hdistinct
  simp [paeEntry, Ne.symm hdistinct.1.2.2, Ne.symm hdistinct.2.1.2, Ne.symm hdistinct.2.2.1]

end

theorem entry_paeBuildKernel (pdpt directory first second : UInt32) (memory : Ram) (frame : UInt32)
    (index : ℕ) : (paeBuildKernel pdpt directory first second memory).entry frame index =
      paeEntry pdpt directory first second memory frame index := by
  unfold paeBuildKernel paeEntry
  simp only [entry_setEntry_eq (rfl : (tableEntry _ 0).high = 0),
    entry_setEntry_eq (rfl : (directoryEntry directory).high = 0), entry_mapIdentity,
    mapIdentity_keeps, Ram.toPagingState_setEntry, entry_clearFrame_eq, List.mem_range'_1,
    List.mem_range, Nat.zero_add]
  rfl

theorem legacyBuildKernel_keeps (directory identity : UInt32) (memory : Ram) :
    (legacyBuildKernel directory identity memory).toPagingState = memory.toPagingState ∧
      (legacyBuildKernel directory identity memory).pmm = memory.pmm := by
  simp only [legacyBuildKernel, Ram.toPagingState_setEntry, Ram.pmm_setEntry, mapIdentity_keeps]
  exact ⟨rfl, rfl⟩

theorem paeBuildKernel_keeps (pdpt directory first second : UInt32) (memory : Ram) :
    (paeBuildKernel pdpt directory first second memory).toPagingState = memory.toPagingState ∧
      (paeBuildKernel pdpt directory first second memory).pmm = memory.pmm := by
  simp only [paeBuildKernel, Ram.toPagingState_setEntry, Ram.pmm_setEntry, mapIdentity_keeps]
  exact ⟨rfl, rfl⟩

end Built

/-- A frame of the kernel's. -/
def Pmm.KernelHeld (pmm : Pmm) (frame : UInt32) : Prop := pmm.Held frame ∧ ¬pmm.Owned frame

/-- Frames that the kernel took one after the other. -/
structure TakesAll (pmm : Pmm) (blocks : List UInt32) (taken : Pmm) : Prop where
  held : ∀ frame ∈ blocks, taken.KernelHeld frame
  distinct : blocks.Nodup
  mapped : ∀ frame, taken.Mapped frame ↔ pmm.Mapped frame

section Taking

variable {pmm middle taken : Pmm} {frame block limit : UInt32} {blocks : List UInt32}

theorem Pmm.Takes.kernelHeld (htakes : middle.Takes block false taken)
    (h : middle.KernelHeld frame ∨ frame = block) : taken.KernelHeld frame := by
  refine ⟨(htakes.held frame).2 (h.imp_left (·.1)), fun howned ↦ ?_⟩
  rcases (htakes.owned frame).1 howned with hbefore | ⟨-, hfalse⟩
  · rcases h with hheld | rfl
    · exact hheld.2 hbefore
    · exact htakes.free hbefore.held
  · cases hfalse

theorem takesAll_nil (pmm : Pmm) : TakesAll pmm [] pmm := ⟨nofun, .nil, fun _ ↦ .rfl⟩

theorem TakesAll.alloc (h : TakesAll pmm blocks middle)
    (halloc : pmmAllocBlockBelow limit middle = (block, taken)) (hne : block ≠ 0) :
    TakesAll pmm (blocks ++ [block]) taken := by
  obtain ⟨found, after, hfound, htakes, -⟩ := (pmmAllocBlockBelow_cases limit middle).resolve_left
    fun hfull ↦ hne (congrArg Prod.fst (halloc.symm.trans hfull))
  cases hfound.symm.trans halloc
  refine ⟨fun frame hframe ↦ htakes.kernelHeld ?_, ?_, fun frame ↦ ?_⟩
  · exact (List.mem_append.1 hframe).imp (h.held frame) List.mem_singleton.1
  · refine List.nodup_append.2 ⟨h.distinct, List.nodup_singleton _,
      fun frame hframe other hother ↦ ?_⟩
    rintro rfl
    exact htakes.free (List.mem_singleton.1 hother ▸ (h.held frame hframe).1)
  · exact (htakes.mapped frame).trans (h.mapped frame)

end Taking

theorem aligned_mul_pageSize (word : UInt32) : Aligned (word * pageSize) := by
  rw [aligned_iff, UInt32.toNat_mul]
  change word.toNat * 4096 % 2 ^ 32 % 4096 = 0
  omega

theorem user_identityEntry (mode : Mode) (nxEnabled : Bool) (page : ℕ) :
    (identityEntry mode nxEnabled page).user = false := by
  change decide ((UInt32.ofNat page * pageSize ||| pagePresent ||| pageFlagWritable) &&&
    pageFlagUser ≠ 0) = false
  rw [or_and_right, or_and_right, aligned_and_bit (aligned_mul_pageSize _) rfl]
  rfl

section Tree

variable {memory : Ram} {root : UInt32} {role : UInt32 → Option Place}

/-- What a present entry of the kernel's tree is like before there is a process. -/
def KernelEntry (memory : Ram) (nodes : List (UInt32 × Place)) (node : UInt32 × Place) (slot : ℕ) :
    Prop :=
  match memory.mode.level node.2.path with
  | .root => ((memory.entry node.1 slot).physical, node.2.child slot) ∈ nodes
  | .directory => ((memory.entry node.1 slot).physical, node.2.child slot) ∈ nodes ∧
      (memory.entry node.1 slot).user = false ∧ ¬memory.mode.userRegion node.2.path slot
  | .table => (memory.entry node.1 slot).user = false
  | .page => False

/-- The kernel's tree on its own. -/
theorem isolated_of_nodes {nodes : List (UInt32 × Place)}
    (hkernel : memory.kernelPageDirectory = root) (hcurrent : memory.pageDirectory = root)
    (hspaces : memory.addressSpaces = []) (hdistinct : (nodes.map Prod.fst).Nodup)
    (hroot : (root, Node.top root) ∈ nodes)
    (hnodes : ∀ node ∈ nodes, node.2.root = root ∧ memory.mode.level node.2.path ≠ .page ∧
      memory.pmm.KernelHeld node.1)
    (hentries : ∀ node ∈ nodes, ∀ slot, (memory.entry node.1 slot).present = true →
      KernelEntry memory nodes node slot)
    (hup : ∀ node ∈ nodes, node = (root, .top root) ∨ ∃ parent ∈ nodes, ∃ slot < paePdpEntries,
      node.2 = parent.2.child slot ∧ memory.mode.level parent.2.path ≠ .table ∧
        (memory.entry parent.1 slot).present = true ∧
        (memory.entry parent.1 slot).physical = node.1)
    (hmapped : ∀ frame, ¬memory.pmm.Mapped frame) : Isolated memory (nodes.lookup ·) := by
  have hroots : memory.IsRoot = (· = root) := by
    funext frame
    simp [PagingState.IsRoot, hspaces, hkernel]
  have hslots : paePdpEntries ≤ memory.mode.slots := by cases memory.mode <;> decide
  have hframes : ∀ frame place, nodes.lookup frame = some place → memory.pmm.KernelHeld frame ∧
      memory.mode.level place.path ≠ .page := fun frame place hrole ↦
    ⟨(hnodes _ ((lookup_eq_some hdistinct).1 hrole)).2.2,
      (hnodes _ ((lookup_eq_some hdistinct).1 hrole)).2.1⟩
  refine ⟨hroots ▸ .of_nodes hdistinct hroot ?_ ?_ ?_,
    fun frame place hrole ↦ (hframes frame place hrole).1.1,
    fun frame place hrole _ ↦ (hframes frame place hrole).1.2,
    fun frame place hrole hpage ↦ absurd hpage (hframes frame place hrole).2,
    fun frame h ↦ absurd h (hmapped frame), hroots ▸ hcurrent, hspaces ▸ List.nodup_nil,
    hspaces ▸ List.not_mem_nil⟩
  · intro node hnode slot hlinks hpresent
    have hentry := hentries node hnode slot hpresent
    simp only [discipline] at hlinks
    unfold KernelEntry at hentry
    split at hentry
    · exact hentry
    · exact hentry.1
    next hlevel =>
      simp only [hlevel] at hlinks
      exact absurd ((hnodes node hnode).1.trans hkernel.symm) hlinks.2
    · exact hentry.elim
  · intro node hnode
    refine (hup node hnode).imp_right ?_
    rintro ⟨parent, hparent, slot, hslot, hchild, hlevel, hentry⟩
    refine ⟨parent, hparent, slot, hchild, ?_, hentry⟩
    simp only [discipline]
    split
    · exact hslot
    · exact ⟨hslot.trans_le hslots, .inl ((hnodes parent hparent).1.trans hkernel.symm)⟩
    next htable => exact absurd htable hlevel
    next hpage => exact absurd hpage (hnodes parent hparent).2.1
  · intro node hnode slot hpresent
    have hentry := hentries node hnode slot hpresent
    have hroot := (hnodes node hnode).1.trans hkernel.symm
    unfold KernelEntry at hentry
    simp only [discipline]
    split at hentry
    next hlevel => simp only [hlevel]
    next hlevel =>
      simp only [hlevel]
      simp [hentry.2.1, hentry.2.2, hroot]
    next hlevel =>
      simp only [hlevel]
      simp [hentry, hroot]
    · exact hentry.elim

theorem legacyBuildKernel_isolated {pmm : Pmm} {directory identity : UInt32}
    (hmode : memory.mode = .legacy) (htakes : TakesAll pmm [directory, identity] memory.pmm)
    (hmapped : ∀ frame, ¬memory.pmm.Mapped frame) :
    ∃ role, Isolated
      (legacyBuildKernel directory identity (memory.startingFrom directory)) role := by
  obtain ⟨hstate, hpmm⟩ :=
    legacyBuildKernel_keeps directory identity (memory.startingFrom directory)
  have hentry := entry_legacyBuildKernel directory identity (memory.startingFrom directory)
  generalize legacyBuildKernel directory identity (memory.startingFrom directory) = built at *
  have hbuilt : built.mode = .legacy := by rw [hstate]; exact hmode
  have hkernel : built.kernelPageDirectory = directory := by rw [hstate]; rfl
  have hdirectory := htakes.held directory (by simp)
  have hidentity := htakes.held identity (by simp)
  have hne : identity ≠ directory := by
    rintro rfl
    simpa using htakes.distinct
  have haligned : Aligned identity := hidentity.1.1
  have hdistinct : ([(directory, Node.top directory), (identity, ⟨directory, [0]⟩)].map
    Prod.fst).Nodup := htakes.distinct
  refine ⟨_, isolated_of_nodes hkernel (by rw [hstate]; rfl) (by rw [hstate]; rfl) hdistinct
    List.mem_cons_self ?_ ?_ ?_ (by rw [hpmm]; exact hmapped)⟩
  all_goals simp only [List.forall_mem_cons, List.not_mem_nil, IsEmpty.forall_iff, implies_true,
    and_true, KernelEntry, hbuilt, hentry, legacyEntry_directory hne, legacyEntry_identity hne]
  · rw [hpmm]
    exact ⟨⟨rfl, by rintro ⟨⟩, hdirectory⟩, trivial, by decide, hidentity⟩
  · refine ⟨fun slot hpresent ↦ ?_, fun slot hpresent ↦ ?_⟩
    · split_ifs at hpresent ⊢ with hzero
      · simp [hzero, physical_tableEntry haligned, user_tableEntry haligned, Mode.userRegion,
          Node.child, Node.top, Mode.level]
      · cases hpresent
    · split_ifs at hpresent ⊢ with hinside
      · exact user_identityEntry _ _ _
      · cases hpresent
  · refine ⟨.inl trivial, .inr ⟨_, List.mem_cons_self, 0, by decide, rfl, by rintro ⟨⟩, ?_⟩⟩
    rw [legacyEntry_directory hne]
    exact ⟨present_tableEntry _ _, physical_tableEntry haligned _⟩

theorem paeBuildKernel_isolated {pmm : Pmm} {pdpt directory first second : UInt32}
    (hmode : memory.mode = .pae)
    (htakes : TakesAll pmm [pdpt, directory, first, second] memory.pmm)
    (hmapped : ∀ frame, ¬memory.pmm.Mapped frame) :
    ∃ role, Isolated
      (paeBuildKernel pdpt directory first second (memory.startingFrom pdpt)) role := by
  obtain ⟨hstate, hpmm⟩ :=
    paeBuildKernel_keeps pdpt directory first second (memory.startingFrom pdpt)
  have hentry := entry_paeBuildKernel pdpt directory first second (memory.startingFrom pdpt)
  generalize paeBuildKernel pdpt directory first second (memory.startingFrom pdpt) = built at *
  have hbuilt : built.mode = .pae := by rw [hstate]; exact hmode
  have hkernel : built.kernelPageDirectory = pdpt := by rw [hstate]; rfl
  obtain ⟨hheld, hdistinct, -⟩ := htakes
  simp only [List.forall_mem_cons, List.not_mem_nil, IsEmpty.forall_iff, implies_true,
    and_true] at hheld
  obtain ⟨hpdptHeld, hdirectoryHeld, hfirstHeld, hsecondHeld⟩ := hheld
  have hnodes : ([(pdpt, Node.top pdpt), (directory, ⟨pdpt, [0]⟩), (first, ⟨pdpt, [0, 0]⟩),
    (second, ⟨pdpt, [1, 0]⟩)].map Prod.fst).Nodup := hdistinct
  refine ⟨_, isolated_of_nodes hkernel (by rw [hstate]; rfl) (by rw [hstate]; rfl) hnodes
    List.mem_cons_self ?_ ?_ ?_ (by rw [hpmm]; exact hmapped)⟩
  all_goals simp only [List.forall_mem_cons, List.not_mem_nil, IsEmpty.forall_iff, implies_true,
    and_true, KernelEntry, hbuilt, hentry, paeEntry_pdpt hdistinct, paeEntry_directory hdistinct,
    paeEntry_first hdistinct, paeEntry_second hdistinct]
  · rw [hpmm]
    exact ⟨⟨rfl, by rintro ⟨⟩, hpdptHeld⟩, ⟨trivial, by decide, hdirectoryHeld⟩,
      ⟨trivial, by decide, hfirstHeld⟩, trivial, by decide, hsecondHeld⟩
  · refine ⟨fun slot hpresent ↦ ?_, fun slot hpresent ↦ ?_, fun slot hpresent ↦ ?_,
      fun slot hpresent ↦ ?_⟩
    · split_ifs at hpresent ⊢ with hzero
      · simp [hzero, physical_directoryEntry hdirectoryHeld.1.1, Node.child, Node.top, Mode.level]
      · cases hpresent
    · split_ifs at hpresent ⊢ with hone hzero
      · simp [hone, physical_tableEntry hsecondHeld.1.1, user_tableEntry hsecondHeld.1.1,
          Mode.userRegion, Node.child, Mode.level]
      · simp [hzero, physical_tableEntry hfirstHeld.1.1, user_tableEntry hfirstHeld.1.1,
          Mode.userRegion, Node.child, Mode.level]
      · cases hpresent
    all_goals
      split_ifs at hpresent ⊢
      · exact user_identityEntry _ _ _
      · cases hpresent
  · refine ⟨.inl trivial, .inr ⟨(pdpt, .top pdpt), by simp, 0, by decide, rfl, by rintro ⟨⟩, ?_⟩,
      .inr ⟨(directory, ⟨pdpt, [0]⟩), by simp, 0, by decide, rfl, by rintro ⟨⟩, ?_⟩,
      .inr ⟨(directory, ⟨pdpt, [0]⟩), by simp, 1, by decide, rfl, by rintro ⟨⟩, ?_⟩⟩
    · rw [paeEntry_pdpt hdistinct]
      exact ⟨present_directoryEntry _, physical_directoryEntry hdirectoryHeld.1.1⟩
    all_goals rw [paeEntry_directory hdistinct]
    · exact ⟨present_tableEntry _ _, physical_tableEntry hfirstHeld.1.1 _⟩
    · exact ⟨present_tableEntry _ _, physical_tableEntry hsecondHeld.1.1 _⟩

end Tree

section Filling

variable {memory : Ram} {role : UInt32 → Option Place} {index : ℕ}

theorem framebufferPage_le (hindex : index < vbeFramebufferPages) :
    userAddressLimit ≤ framebufferPage index := by
  have hsmall : index < 768 := hindex
  have hpage : (UInt32.ofNat index * pageSize).toNat = index * 4096 := by
    change index % 2 ^ 32 * 4096 % 2 ^ 32 = index * 4096
    omega
  rw [UInt32.le_iff_toNat_le, framebufferPage, UInt32.toNat_add, hpage]
  change 3221225472 ≤ (3758096384 + index * 4096) % 2 ^ 32
  omega

/-- What every page of the framebuffer keeps, all of them keep. -/
theorem mapFramebuffer_invariant {P : Ram → Prop} (pages : List ℕ)
    (hstep : ∀ before, P before → ∀ index ∈ pages,
      P (pagingMapPage (framebufferPage index) (framebufferPage index) pageFlagWritable before).2)
    {memory : Ram} (hstart : P memory) : P (mapFramebuffer pages memory).2 := by
  induction pages generalizing memory with
  | nil => exact hstart
  | cons index rest ih =>
    have hmapped := hstep memory hstart index List.mem_cons_self
    unfold mapFramebuffer
    dsimp only
    split
    · exact ih (fun before hbefore other hother ↦
        hstep before hbefore other (List.mem_cons_of_mem _ hother)) hmapped
    · exact hmapped

theorem lt_of_mem_framebufferPages {fontAvailable : Bool}
    (hindex : index ∈ framebufferPages fontAvailable) : index < vbeFramebufferPages := by
  unfold framebufferPages at hindex
  split at hindex
  · exact List.mem_range.1 hindex
  · cases hindex

/-- A page of the kernel's half, with the kernel's tree in use. -/
theorem Isolated.mapHigh {memory : Ram} {role : UInt32 → Option Place} (h : Isolated memory role)
    (hcurrent : memory.pageDirectory = memory.kernelPageDirectory) {address : UInt32}
    (haddress : userAddressLimit ≤ address) (physical flags : UInt32) :
    (pagingMapPage address physical flags memory).2.toPagingState = memory.toPagingState ∧
      ∃ roleAfter, Isolated (pagingMapPage address physical flags memory).2 roleAfter := by
  obtain ⟨middle, roleMiddle, hreshapes, -, ⟨hfailed, -⟩ | ⟨-, -, -, -, -, hwrites⟩⟩ :=
    pagingMapPage_spec h address physical flags fun _ _ ↦ ⟨hcurrent, haddress⟩
  · rw [hfailed]
    exact ⟨hreshapes.state, roleMiddle, hreshapes.isolated⟩
  · exact ⟨hwrites.state.trans hreshapes.state, _, hwrites.isolated⟩

/-- The framebuffer goes into the kernel's half of its tree. -/
theorem mapFramebuffer_isolated (fontAvailable : Bool) {memory : Ram} {role : UInt32 → Option Place}
    (h : Isolated memory role) (hcurrent : memory.pageDirectory = memory.kernelPageDirectory) :
    (mapFramebuffer (framebufferPages fontAvailable) memory).2.toPagingState =
        memory.toPagingState ∧
      ∃ roleAfter,
        Isolated (mapFramebuffer (framebufferPages fontAvailable) memory).2 roleAfter := by
  refine mapFramebuffer_invariant (P := fun before ↦ before.toPagingState = memory.toPagingState ∧
    ∃ roleAfter, Isolated before roleAfter) _ ?_ ⟨rfl, role, h⟩
  rintro before ⟨hstate, roleBefore, hbefore⟩ index hindex
  obtain ⟨hmapState, hmapped⟩ := hbefore.mapHigh (by rw [hstate]; exact hcurrent)
    (framebufferPage_le (lt_of_mem_framebufferPages hindex))
      (framebufferPage index) pageFlagWritable
  exact ⟨hmapState.trans hstate, hmapped⟩

theorem readOnlyEntry_and_bit {bit : UInt32} (textEnd address : UInt32) (state : PagingState)
    (entry : Entry) (hwritable : ~~~pageFlagWritable &&& bit = bit)
    (hexecutable : ~~~pageFlagExecutable &&& bit = bit) (hset : pageFlagExecutable &&& bit = 0) :
    (readOnlyEntry textEnd address state entry).low &&& bit = entry.low &&& bit := by
  unfold readOnlyEntry
  split
  · rw [UInt32.and_assoc, hwritable]
  · split
    · rw [or_and_right, UInt32.and_assoc, hwritable, hset, UInt32.or_zero]
    · rw [UInt32.and_assoc, hexecutable]

/-- A page of the kernel's image is protected. -/
theorem protectKernelPage_isolated (image : KernelImage) (address : UInt32)
    (h : Isolated memory role)
    (hcurrent : memory.pageDirectory = memory.kernelPageDirectory) :
    Isolated (protectKernelPage image memory address) role := by
  refine h.rewriteKernel ⟨Ram.toPagingState_setEntry _ _ _, rfl, ?_⟩ (Ram.pmm_setEntry _ _ _)
    (fun _ ↦ role_getPageTable h address hcurrent) ?_
  · intro hmode
    rw [readOnlyEntry, hmode]
    exact Ram.high_entry hmode _ _
  · rintro hpresent ⟨place, hrole⟩
    obtain ⟨hlevel, hroot⟩ := role_getPageTable h address hcurrent hrole
    rw [Entry.present, readOnlyEntry_and_bit _ _ _ _ rfl rfl rfl] at hpresent
    have hadmits := h.typed.admits _ _ _ hrole hpresent
    simp only [discipline, hlevel, hroot, ne_eq, not_true_eq_false, iff_false] at hadmits
    rw [Entry.user, readOnlyEntry_and_bit _ _ _ _ rfl rfl rfl]
    exact Bool.eq_false_iff.2 (hadmits (memory.mode.tableIndex_lt address)).1

theorem protectKernelReadOnly_isolated (image : KernelImage) (h : Isolated memory role)
    (hcurrent : memory.pageDirectory = memory.kernelPageDirectory) :
    (protectKernelReadOnly image memory).toPagingState = memory.toPagingState ∧
      Isolated (protectKernelReadOnly image memory) role := by
  unfold protectKernelReadOnly
  induction pagesBetween image.textStart (roundUpToPage image.rodataEnd) generalizing memory with
  | nil => exact ⟨rfl, h⟩
  | cons address rest ih =>
    have hstate : (protectKernelPage image memory address).toPagingState = memory.toPagingState :=
      Ram.toPagingState_setEntry _ _ _
    obtain ⟨hrestState, hrest⟩ := ih (protectKernelPage_isolated image address h hcurrent)
      (by rw [hstate]; exact hcurrent)
    exact ⟨hrestState.trans hstate, hrest⟩

/-- Memory as paging leaves it when it is turned on. -/
structure Booted (memory : Ram) : Prop where
  isolated : ∃ role, Isolated memory role
  enabled : memory.pagingEnabled = true
  current : memory.pageDirectory = memory.kernelPageDirectory
  spaces : memory.addressSpaces = []

/-- The last steps of both formats, from the tree they built. -/
theorem booted_of_built (image : KernelImage) (fontAvailable : Bool) (h : Isolated memory role)
    (hcurrent : memory.pageDirectory = memory.kernelPageDirectory)
    (hspaces : memory.addressSpaces = []) :
    Booted (enablePaging (protectKernelReadOnly image
      (mapFramebuffer (framebufferPages fontAvailable) memory).2)) := by
  obtain ⟨hmapState, roleMapped, hmapped⟩ := mapFramebuffer_isolated fontAvailable h hcurrent
  obtain ⟨hstate, hprotected⟩ := protectKernelReadOnly_isolated image hmapped
    (by rw [hmapState]; exact hcurrent)
  rw [hmapState] at hstate
  refine ⟨⟨roleMapped, ?_⟩, rfl, ?_, ?_⟩
  · obtain ⟨htyped, hheld, hkernelOwned, hpage, hmappedFrames, hroot, hnodup, hkernel⟩ := hprotected
    exact ⟨htyped, hheld, hkernelOwned, hpage, hmappedFrames, hroot, hnodup, hkernel⟩
  · change (protectKernelReadOnly _ _).pageDirectory =
      (protectKernelReadOnly _ _).kernelPageDirectory
    rw [hstate]
    exact hcurrent
  · change (protectKernelReadOnly _ _).addressSpaces = []
    rw [hstate]
    exact hspaces

end Filling

variable {image : KernelImage} {fontAvailable : Bool} {pmm : Pmm} {frames : UInt32 → Page}

/-- The last steps of both formats. -/
def finishKernel (image : KernelImage) (fontAvailable : Bool) (built : Ram) : Ram :=
  enablePaging
    (protectKernelReadOnly image (mapFramebuffer (framebufferPages fontAvailable) built).2)

/-- The trees that a start builds before its last steps. -/
inductive Built (features : CpuFeatures) (pmm : Pmm) (frames : UInt32 → Page) : Ram → Prop
  | legacy {directory identity : UInt32} {taken : Pmm} (hpae : features.pae = false)
      (htakes : TakesAll pmm [directory, identity] taken) :
      Built features pmm frames (legacyBuildKernel directory identity
        ((unpaged .legacy false taken frames).startingFrom directory))
  | pae {pdpt directory first second : UInt32} {taken : Pmm} (hpae : features.pae = true)
      (htakes : TakesAll pmm [pdpt, directory, first, second] taken) :
      Built features pmm frames (paeBuildKernel pdpt directory first second
        ((unpaged .pae features.nx taken frames).startingFrom pdpt))

variable {features : CpuFeatures} {built : Ram}

theorem Built.state (hbuilt : Built features pmm frames built) :
    built.pageDirectory = built.kernelPageDirectory ∧ built.addressSpaces = [] ∧
      built.mode = if features.pae then .pae else .legacy := by
  cases hbuilt with
  | legacy hpae htakes =>
    rw [(legacyBuildKernel_keeps _ _ _).1, hpae]
    exact ⟨rfl, rfl, rfl⟩
  | pae hpae htakes =>
    rw [(paeBuildKernel_keeps _ _ _ _ _).1, hpae]
    exact ⟨rfl, rfl, rfl⟩

theorem Built.isolated (hbuilt : Built features pmm frames built)
    (hmapped : ∀ frame, ¬pmm.Mapped frame) : ∃ role, Isolated built role := by
  cases hbuilt with
  | legacy hpae htakes =>
    exact legacyBuildKernel_isolated rfl htakes fun frame h ↦ hmapped frame ((htakes.mapped _).1 h)
  | pae hpae htakes =>
    exact paeBuildKernel_isolated rfl htakes fun frame h ↦ hmapped frame ((htakes.mapped _).1 h)

theorem legacyInit_eq (hpae : features.pae = false)
    (hok : (legacyInit image fontAvailable pmm frames).1 = true) :
    ∃ built, Built features pmm frames built ∧
      (legacyInit image fontAvailable pmm frames).2 = finishKernel image fontAvailable built := by
  unfold legacyInit at hok ⊢
  rcases hfirst : pmmAllocBlockBelow lowIdentityLimit pmm with ⟨directory, middle⟩
  rcases hsecond : pmmAllocBlockBelow lowIdentityLimit middle with ⟨identity, taken⟩
  simp only [hfirst, hsecond] at hok ⊢
  split at hok
  · cases hok
  next hnonzero =>
  rw [if_neg hnonzero]
  rw [not_or] at hnonzero
  refine ⟨_, .legacy hpae
    (((takesAll_nil pmm).alloc hfirst hnonzero.1).alloc hsecond hnonzero.2), ?_⟩
  unfold finishKernel
  generalize mapFramebuffer _ _ = mapped at hok ⊢
  obtain ⟨_ | index, mapped⟩ := mapped
  · rfl
  · cases hok

theorem paeInit_eq (hpae : features.pae = true)
    (hok : (paeInit image fontAvailable features.nx pmm frames).1 = true) :
    ∃ built, Built features pmm frames built ∧
      (paeInit image fontAvailable features.nx pmm frames).2 =
        finishKernel image fontAvailable built := by
  unfold paeInit at hok ⊢
  rcases hallocPdpt : pmmAllocBlockBelow lowIdentityLimit pmm with ⟨pdpt, afterPdpt⟩
  rcases hallocDirectory : pmmAllocBlockBelow lowIdentityLimit afterPdpt with
    ⟨directory, afterDirectory⟩
  rcases hallocFirst : pmmAllocBlockBelow lowIdentityLimit afterDirectory with ⟨first, afterFirst⟩
  rcases hallocSecond : pmmAllocBlockBelow lowIdentityLimit afterFirst with ⟨second, taken⟩
  simp only [hallocPdpt, hallocDirectory, hallocFirst, hallocSecond] at hok ⊢
  split at hok
  · cases hok
  next hnonzero =>
  rw [if_neg hnonzero]
  simp only [not_or] at hnonzero
  refine ⟨_, .pae hpae (((((takesAll_nil pmm).alloc hallocPdpt hnonzero.1).alloc hallocDirectory
    hnonzero.2.1).alloc hallocFirst hnonzero.2.2.1).alloc hallocSecond hnonzero.2.2.2), ?_⟩
  unfold finishKernel
  generalize mapFramebuffer _ _ = mapped at hok ⊢
  obtain ⟨_ | index, mapped⟩ := mapped
  · rfl
  · cases hok

/-- What a successful start did. -/
theorem pagingInit_eq (hok : (pagingInit features image fontAvailable pmm frames).1 = true) :
    ∃ built, Built features pmm frames built ∧
      (pagingInit features image fontAvailable pmm frames).2 =
        finishKernel image fontAvailable built := by
  unfold pagingInit at hok ⊢
  split at hok
  next hpae =>
    rw [if_pos hpae]
    exact paeInit_eq hpae hok
  next hlegacy =>
    rw [if_neg hlegacy]
    exact legacyInit_eq (by simpa using hlegacy) hok

/-- Paging starts with the kernel's tree alone. -/
theorem pagingInit_boots (hmapped : ∀ frame, ¬pmm.Mapped frame)
    (hok : (pagingInit features image fontAvailable pmm frames).1 = true) :
    Booted (pagingInit features image fontAvailable pmm frames).2 := by
  obtain ⟨built, hbuilt, heq⟩ := pagingInit_eq hok
  obtain ⟨role, h⟩ := hbuilt.isolated hmapped
  obtain ⟨hcurrent, hspaces, -⟩ := hbuilt.state
  rw [heq]
  exact booted_of_built image fontAvailable h hcurrent hspaces

end EfesOS.Memory
