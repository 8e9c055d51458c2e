import EfesOS.Memory.Pmm

/-!
# Page tables

`src/memory/paging.c` builds page tables in one of two formats: two levels of 32-bit entries, or the
three levels of 64-bit entries of physical address extension. The functions for the two formats
differ in how a table is indexed and an entry stored (`Mode`), and in the page directories that
only the second has between its root and its tables. Where they differ in what they do, each
format has its own function here.

`Ram` holds the static variables of the file, the words of physical memory and the allocator. The
tables are below four megabytes, where every directory maps memory to itself, so the code reads and
writes them by their physical address. A page table entry is the pair of its two words; an entry of
the 32-bit format has no second word.

Besides the result, each function leaves behind the stores and the instructions that a processor
sees (`Action`), in the order the source gives them.
-/

set_option autoImplicit false

namespace EfesOS.Memory

abbrev pageSize : UInt32 := 4096

abbrev pageFlagWritable : UInt32 := 0x002

abbrev pageFlagUser : UInt32 := 0x004

abbrev pageFlagCacheDisable : UInt32 := 0x010

abbrev pageFlagExecutable : UInt32 := 0x200

abbrev pagePresent : UInt32 := 0x001

abbrev pageAddressMask : UInt32 := 0xFFFFF000

abbrev pageAllowedFlags : UInt32 := 0x216

/-- The upper word of `PAE_NX`. -/
abbrev paeNx : UInt32 := 0x80000000

abbrev lowIdentityLimit : UInt32 := 0x00400000

abbrev vbeFramebufferVirtual : UInt32 := 0xE0000000

abbrev vbeFramebufferPages : ℕ := 768

abbrev userAddressLimit : UInt32 := 0xC0000000

abbrev userMappingMin : UInt32 := 0x00400000

abbrev pagingMaxAddressSpaces : ℕ := 16

abbrev paePdpEntries : ℕ := 4

/-! ### Entries -/

/-- `struct pae_entry`. -/
@[ext] structure Entry where
  low : UInt32
  high : UInt32
  deriving DecidableEq

namespace Entry

/-- The entry that maps nothing. -/
def absent : Entry := ⟨0, 0⟩

def present (entry : Entry) : Bool := decide (entry.low &&& pagePresent ≠ 0)

def writable (entry : Entry) : Bool := decide (entry.low &&& pageFlagWritable ≠ 0)

def user (entry : Entry) : Bool := decide (entry.low &&& pageFlagUser ≠ 0)

def executable (entry : Entry) : Bool := decide (entry.low &&& pageFlagExecutable ≠ 0)

def noExecute (entry : Entry) : Bool := decide (entry.high &&& paeNx ≠ 0)

/-- `pae_entry_physical`: the address field cut to 32 bits. -/
def physical (entry : Entry) : UInt32 := entry.low &&& pageAddressMask

def withUser (entry : Entry) : Entry := { entry with low := entry.low ||| pageFlagUser }

end Entry

/-- The entry that links a table into a directory. -/
def tableEntry (physical flags : UInt32) : Entry :=
  ⟨physical ||| pagePresent ||| pageFlagWritable ||| (flags &&& pageFlagUser), 0⟩

/-- The entry that links a page directory into the root. -/
def directoryEntry (physical : UInt32) : Entry := ⟨physical ||| pagePresent, 0⟩

def paeFlagsToEntry (nxEnabled : Bool) (physical flags : UInt32) : Entry where
  low := physical ||| pagePresent |||
    (if flags &&& pageFlagWritable ≠ 0 then pageFlagWritable else 0) |||
    (if flags &&& pageFlagUser ≠ 0 then pageFlagUser else 0) |||
    (flags &&& pageFlagCacheDisable) |||
    (if flags &&& pageFlagExecutable ≠ 0 then pageFlagExecutable else 0)
  high := if nxEnabled ∧ flags &&& pageFlagExecutable = 0 then paeNx else 0

/-- The words of a frame. -/
abbrev Page := ℕ → UInt32

/-- The format of the tables: `paging_pae_enabled`. -/
inductive Mode where
  | legacy
  | pae
  deriving DecidableEq

namespace Mode

def slots : Mode → ℕ
  | legacy => 1024
  | pae => 512

def entry : Mode → Page → ℕ → Entry
  | legacy, page, index => ⟨page index, 0⟩
  | pae, page, index => ⟨page (2 * index), page (2 * index + 1)⟩

/-- The entry that maps a page. -/
def leaf : Mode → Bool → UInt32 → UInt32 → Entry
  | legacy, _, physical, flags => ⟨physical ||| pagePresent ||| (flags &&& pageAllowedFlags), 0⟩
  | pae, nxEnabled, physical, flags => paeFlagsToEntry nxEnabled physical flags

def directoryIndex : Mode → UInt32 → ℕ
  | legacy, address => (address >>> 22).toNat
  | pae, address => ((address >>> 21) &&& 0x1FF).toNat

def tableIndex : Mode → UInt32 → ℕ
  | legacy, address => ((address >>> 12) &&& 0x3FF).toNat
  | pae, address => ((address >>> 12) &&& 0x1FF).toNat

end Mode

/-- The index of an address in the root of the three-level format. -/
def pdptIndex (address : UInt32) : ℕ := (address >>> 30).toNat

/-! ### Memory -/

/-- What a processor sees of the code: a store to a frame and the two instructions that drop cached
translations. -/
inductive Action where
  | store (frame : UInt32) (page : Page)
  | invalidatePage (address : UInt32)
  | loadCr3 (directory : UInt32)

/-- The static variables of `paging.c`; only those of the format in use are there. -/
structure PagingState where
  mode : Mode
  paeNxEnabled : Bool
  pagingEnabled : Bool
  pageDirectory : UInt32
  kernelPageDirectory : UInt32
  addressSpaces : List UInt32

/-- Memory, its allocator and what was done to it, the last action first. -/
structure Ram extends PagingState where
  pmm : Pmm
  frames : UInt32 → Page
  actions : List Action

namespace Ram

def onPmm (update : Pmm → Pmm) (memory : Ram) : Ram :=
  { memory with pmm := update memory.pmm }

def store (frame : UInt32) (page : Page) (memory : Ram) : Ram :=
  { memory with
    frames := Function.update memory.frames frame page
    actions := .store frame page :: memory.actions }

/-- `clear_page` and `clear_pae_page`. -/
def clearFrame (frame : UInt32) (memory : Ram) : Ram := memory.store frame fun _ ↦ 0

def entry (memory : Ram) (frame : UInt32) (index : ℕ) : Entry :=
  memory.mode.entry (memory.frames frame) index

/-- A store to an entry; the two words of a 64-bit entry are stored one after the other. -/
def setEntry (frame : UInt32) (index : ℕ) (value : Entry) (memory : Ram) : Ram :=
  match memory.mode with
  | .legacy => memory.store frame (Function.update (memory.frames frame) index value.low)
  | .pae =>
    let lowStored :=
      memory.store frame (Function.update (memory.frames frame) (2 * index) value.low)
    lowStored.store frame
      (Function.update (lowStored.frames frame) (2 * index + 1) value.high)

def invalidatePage (address : UInt32) (memory : Ram) : Ram :=
  if memory.pagingEnabled then
    { memory with actions := .invalidatePage address :: memory.actions }
  else memory

def flushTlb (memory : Ram) : Ram :=
  if memory.pagingEnabled then
    { memory with actions := .loadCr3 memory.pageDirectory :: memory.actions }
  else memory

/-- Whether some entry of a table is present. -/
def tableInUse (table : UInt32) (memory : Ram) : Bool :=
  (List.range memory.mode.slots).any fun index ↦ (memory.entry table index).present

end Ram

/-! ### Finding tables -/

/-- `pae_page_directory_for`, with 0 for the null pointer. -/
def paePageDirectoryFor (directory : UInt32) (index : ℕ) (memory : Ram) : UInt32 :=
  if directory = 0 ∨ paePdpEntries ≤ index ∨ (memory.entry directory index).present = false then 0
  else (memory.entry directory index).physical

/-- The frame with the directory entry of an address: the root itself in the two-level format. -/
def directoryFor (directory address : UInt32) (memory : Ram) : UInt32 :=
  match memory.mode with
  | .legacy => directory
  | .pae => paePageDirectoryFor directory (pdptIndex address) memory

/-- `pae_get_page_table_for`, and what `get_page_table` does with the current directory. -/
def getPageTableFor (directory address : UInt32) (memory : Ram) : UInt32 :=
  let pageDirectory := directoryFor directory address memory
  if pageDirectory = 0 then 0
  else
    let entry := memory.entry pageDirectory (memory.mode.directoryIndex address)
    if entry.present then entry.physical else 0

def getPageTable (address : UInt32) (memory : Ram) : UInt32 :=
  getPageTableFor memory.pageDirectory address memory

def usesSharedKernelTable (address : UInt32) (memory : Ram) : Bool :=
  let kernelDirectory := directoryFor memory.kernelPageDirectory address memory
  let currentDirectory := directoryFor memory.pageDirectory address memory
  let index := memory.mode.directoryIndex address
  if memory.pageDirectory = 0 ∨ memory.kernelPageDirectory = 0 ∨
      memory.pageDirectory = memory.kernelPageDirectory ∨
      kernelDirectory = 0 ∨ currentDirectory = 0 then false
  else
    (memory.entry kernelDirectory index).present && (memory.entry currentDirectory index).present &&
      (memory.entry kernelDirectory index).physical ==
        (memory.entry currentDirectory index).physical

def pageTableAllowsUserMappings (table : UInt32) (memory : Ram) : Bool :=
  table != 0 && (List.range memory.mode.slots).all fun index ↦
    !(memory.entry table index).present || (memory.entry table index).user

/-! ### Mapping pages -/

/-- The part of `ensure_page_table` and `pae_ensure_page_table` that they share: find or make the
table in a page directory. -/
def ensureTableIn (directory address flags : UInt32) (memory : Ram) : UInt32 × Ram :=
  let index := memory.mode.directoryIndex address
  let entry := memory.entry directory index
  if entry.present then
    if usesSharedKernelTable address memory then (0, memory)
    else if flags &&& pageFlagUser ≠ 0 then
      if pageTableAllowsUserMappings entry.physical memory then
        (entry.physical, memory.setEntry directory index entry.withUser)
      else (0, memory)
    else (entry.physical, memory)
  else
    let (physical, pmm) := pmmAllocBlockBelow lowIdentityLimit memory.pmm
    if physical = 0 then (0, memory)
    else
      let cleared := { memory with pmm := pmm }.clearFrame physical
      (physical, cleared.setEntry directory index (tableEntry physical flags))

/-- Make the page directory that the three-level format lacks for an address. -/
def paeEnsureDirectory (address : UInt32) (memory : Ram) : UInt32 × Ram :=
  let pageDirectory := paePageDirectoryFor memory.pageDirectory (pdptIndex address) memory
  if pageDirectory ≠ 0 then (pageDirectory, memory)
  else
    let (physical, pmm) := pmmAllocBlockBelow lowIdentityLimit memory.pmm
    if physical = 0 then (0, memory)
    else
      let cleared := { memory with pmm := pmm }.clearFrame physical
      (physical,
        cleared.setEntry memory.pageDirectory (pdptIndex address) (directoryEntry physical))

def paeEnsurePageTable (address flags : UInt32) (memory : Ram) : UInt32 × Ram :=
  let (pageDirectory, memory) := paeEnsureDirectory address memory
  if pageDirectory = 0 then (0, memory) else ensureTableIn pageDirectory address flags memory

def ensurePageTable (address flags : UInt32) (memory : Ram) : UInt32 × Ram :=
  match memory.mode with
  | .legacy => ensureTableIn memory.pageDirectory address flags memory
  | .pae => paeEnsurePageTable address flags memory

/-- The flags that no mapping has. -/
def flagsRefused (flags : UInt32) : Prop :=
  flags &&& ~~~pageAllowedFlags ≠ 0 ∨
    flags &&& (pageFlagWritable ||| pageFlagExecutable) = pageFlagWritable ||| pageFlagExecutable
  deriving Decidable

/-- What is asked of a mapping that a process may use, besides its frame. -/
def userMappingRefused (address flags : UInt32) (memory : Ram) : Prop :=
  flags &&& pageFlagUser ≠ 0 ∧ (memory.pageDirectory = memory.kernelPageDirectory ∨
    address < userMappingMin ∨ userAddressLimit ≤ address)
  deriving Decidable

def pagingMapPage (address physical flags : UInt32) (memory : Ram) : Bool × Ram :=
  if memory.pageDirectory = 0 ∨ address < pageSize ∨ physical < pageSize ∨ ¬Aligned address ∨
      ¬Aligned physical ∨ flagsRefused flags ∨
      (flags &&& pageFlagUser ≠ 0 ∧ pmmBlockIsUserOwned physical memory.pmm = false) ∨
      userMappingRefused address flags memory ∨ usesSharedKernelTable address memory = true then
    (false, memory)
  else
    let (table, memory) := ensurePageTable address flags memory
    let index := memory.mode.tableIndex address
    if table = 0 then (false, memory)
    else if (memory.entry table index).present then (false, memory)
    else
      let (claimed, pmm) :=
        if flags &&& pageFlagUser ≠ 0 then pmmClaimUserBlock physical memory.pmm
        else (true, memory.pmm)
      if claimed then
        let stored := { memory with pmm := pmm }.setEntry table index
          (memory.mode.leaf memory.paeNxEnabled physical flags)
        (true, stored.invalidatePage address)
      else (false, memory)

def pagingProtectPage (address flags : UInt32) (memory : Ram) : Bool × Ram :=
  if memory.pageDirectory = 0 ∨ address < pageSize ∨ ¬Aligned address ∨ flagsRefused flags ∨
      userMappingRefused address flags memory ∨ usesSharedKernelTable address memory = true then
    (false, memory)
  else
    let table := getPageTable address memory
    let index := memory.mode.tableIndex address
    let entry := memory.entry table index
    if table = 0 then (false, memory)
    else if entry.present = false ∨ entry.user ≠ decide (flags &&& pageFlagUser ≠ 0) ∨
        (flags &&& pageFlagUser ≠ 0 ∧ pmmBlockIsUserOwned entry.physical memory.pmm = false) then
      (false, memory)
    else
      let stored := memory.setEntry table index
        (memory.mode.leaf memory.paeNxEnabled entry.physical flags)
      let marked :=
        if flags &&& pageFlagUser ≠ 0 then
          let directory := directoryFor stored.pageDirectory address stored
          stored.setEntry directory (stored.mode.directoryIndex address)
            (stored.entry directory (stored.mode.directoryIndex address)).withUser
        else stored
      (true, marked.invalidatePage address)

/-- The end of `pae_unmap_page`: the page directory goes with its last table. The processor is not
told of it. -/
def paeDropDirectory (address directory : UInt32) (memory : Ram) : Ram :=
  if memory.tableInUse directory then memory
  else (memory.setEntry memory.pageDirectory (pdptIndex address) .absent).onPmm
    (pmmFreeBlock directory)

/-- A table whose last page was unmapped goes back to the allocator. -/
def dropTable (address table : UInt32) (memory : Ram) : Ram :=
  let directory := directoryFor memory.pageDirectory address memory
  let unlinked := memory.setEntry directory (memory.mode.directoryIndex address) .absent
  let freed := unlinked.flushTlb.onPmm (pmmFreeBlock table)
  match memory.mode with
  | .legacy => freed
  | .pae => paeDropDirectory address directory freed

/-- The entry of a page goes, and the claim on its frame with it. -/
def clearMapping (address table : UInt32) (entry : Entry) (memory : Ram) : Ram :=
  let cleared := memory.setEntry table (memory.mode.tableIndex address) .absent
  let released :=
    if entry.user then cleared.onPmm (pmmReleaseUserBlock entry.physical) else cleared
  released.invalidatePage address

def pagingUnmapPage (address : UInt32) (memory : Ram) : UInt32 × Ram :=
  if memory.pageDirectory = 0 ∨ address < pageSize ∨ ¬Aligned address ∨
      (memory.pageDirectory = memory.kernelPageDirectory ∧ address < userMappingMin) ∨
      usesSharedKernelTable address memory = true then
    (0, memory)
  else
    let table := getPageTable address memory
    let index := memory.mode.tableIndex address
    let entry := memory.entry table index
    if table = 0 ∨ entry.present = false then (0, memory)
    else
      let cleared := clearMapping address table entry memory
      if cleared.tableInUse table then (entry.physical, cleared)
      else (entry.physical, dropTable address table cleared)

/-! ### Reading mappings -/

/-- The entry that maps an address in the current directory, or an absent one. -/
def currentEntry (address : UInt32) (memory : Ram) : Entry :=
  let table := getPageTable address memory
  if table = 0 then .absent else memory.entry table (memory.mode.tableIndex address)

def pagingIsMapped (address : UInt32) (memory : Ram) : Bool :=
  (currentEntry address memory).present

/-- The directory entry of an address in the current directory. -/
def currentDirectoryEntry (address : UInt32) (memory : Ram) : Entry :=
  let directory := directoryFor memory.pageDirectory address memory
  if directory = 0 then .absent
  else memory.entry directory (memory.mode.directoryIndex address)

/-- The addresses that `for (page = first; page < last; page += PAGE_SIZE)` goes through. -/
def pagesBetween (first last : UInt32) : List UInt32 :=
  (List.range ((last.toNat - first.toNat + 4095) / 4096)).map fun index ↦
    first + pageSize * UInt32.ofNat index

def pageIsUserAccessible (writable : Bool) (memory : Ram) (page : UInt32) : Bool :=
  let directoryEntry := currentDirectoryEntry page memory
  let entry := currentEntry page memory
  directoryEntry.present && directoryEntry.user && entry.present && entry.user &&
    (!writable || entry.writable)

def pagingValidateUserRange (address length : UInt32) (writable : Bool) (memory : Ram) : Bool :=
  if length = 0 then true
  else if memory.pageDirectory = 0 ∨ address < pageSize ∨ userAddressLimit ≤ address ∨
      userAddressLimit - address < length then false
  else (pagesBetween (address &&& pageAddressMask) (address + length)).all
    (pageIsUserAccessible writable memory)

def pagingValidateUserExecute (address : UInt32) (memory : Ram) : Bool :=
  if memory.pageDirectory = 0 ∨ address < pageSize ∨ userAddressLimit ≤ address then false
  else
    let entry := currentEntry address memory
    pageIsUserAccessible false memory address && !entry.writable && entry.executable &&
      (!memory.paeNxEnabled || !entry.noExecute)

/-! ### Address spaces -/

def addressSpaceIsRegistered (directory : UInt32) (memory : Ram) : Bool :=
  directory == memory.kernelPageDirectory || memory.addressSpaces.contains directory

def pagingAddressSpaceIsValid (directory : UInt32) (memory : Ram) : Bool :=
  directory != 0 && decide (Aligned directory) && addressSpaceIsRegistered directory memory

/-- Give back the page directories copied so far and the root they hang from. -/
def releaseClones (root : UInt32) (copied : List ℕ) (memory : Ram) : Ram :=
  let present := copied.filter fun index ↦ (memory.entry root index).present
  memory.onPmm fun pmm ↦ pmmFreeBlock root
    (present.foldl (fun pmm index ↦ pmmFreeBlock (memory.entry root index).physical pmm) pmm)

/-- Copy the page directories of the kernel into a new root, from an index on. -/
def cloneDirectories (root : UInt32) : List ℕ → Ram → Bool × Ram
  | [], memory => (true, memory)
  | index :: rest, memory =>
    let kernelEntry := memory.entry memory.kernelPageDirectory index
    if kernelEntry.present = false then cloneDirectories root rest memory
    else
      let (physical, pmm) := pmmAllocBlockBelow lowIdentityLimit memory.pmm
      if physical = 0 then (false, releaseClones root (List.range index) memory)
      else
        let copied := { memory with pmm := pmm }.store physical
          (memory.frames kernelEntry.physical)
        cloneDirectories root rest (copied.setEntry root index (directoryEntry physical))

/-- Fill a new root with what the kernel's has. -/
def fillRoot (root : UInt32) (memory : Ram) : Bool × Ram :=
  match memory.mode with
  | .legacy => (true, memory.store root (memory.frames memory.kernelPageDirectory))
  | .pae => cloneDirectories root (List.range paePdpEntries) (memory.clearFrame root)

def pagingCreateAddressSpace (memory : Ram) : UInt32 × Ram :=
  if memory.kernelPageDirectory = 0 ∨ memory.addressSpaces.length = pagingMaxAddressSpaces then
    (0, memory)
  else
    let (physical, pmm) := pmmAllocBlockBelow lowIdentityLimit memory.pmm
    if physical = 0 then (0, memory)
    else
      let (filled, memory) := fillRoot physical { memory with pmm := pmm }
      if filled then
        (physical, { memory with addressSpaces := memory.addressSpaces ++ [physical] })
      else (0, memory)

def pagingSwitchAddressSpace (directory : UInt32) (memory : Ram) : Bool × Ram :=
  if pagingAddressSpaceIsValid directory memory = false then (false, memory)
  else if directory = memory.pageDirectory then (true, memory)
  else (true, { memory with pageDirectory := directory }.flushTlb)

/-- The page directory of a space behind a slot of its root, unless it is the kernel's, with the
kernel's at the same place. -/
def ownDirectoryAt (directory : UInt32) (memory : Ram) (index : ℕ) : Option (UInt32 × UInt32) :=
  let kernelDirectory := paePageDirectoryFor memory.kernelPageDirectory index memory
  let tableDirectory := paePageDirectoryFor directory index memory
  if tableDirectory = 0 ∨ (kernelDirectory ≠ 0 ∧ (memory.entry directory index).physical =
      (memory.entry memory.kernelPageDirectory index).physical) then none
  else some (tableDirectory, kernelDirectory)

/-- The directories that the destruction of a space goes through. -/
def ownDirectories (directory : UInt32) (memory : Ram) : List (UInt32 × UInt32) :=
  match memory.mode with
  | .legacy => [(directory, memory.kernelPageDirectory)]
  | .pae => (List.range paePdpEntries).filterMap (ownDirectoryAt directory memory)

/-- The directory slots that the destruction of a space looks at. -/
def destroyedSlots : Mode → List ℕ
  | .legacy => List.range' 1 767
  | .pae => List.range 512

/-- The entry of a directory for a table that is not the kernel's. -/
def ownTableAt (directories : UInt32 × UInt32) (memory : Ram) (index : ℕ) : Option Entry :=
  let entry := memory.entry directories.1 index
  if entry.present = false ∨ (directories.2 ≠ 0 ∧
      (memory.entry directories.2 index).present = true ∧
      entry.physical = (memory.entry directories.2 index).physical) then none
  else some entry

def ownTables (directories : UInt32 × UInt32) (memory : Ram) : List Entry :=
  (destroyedSlots memory.mode).filterMap (ownTableAt directories memory)

/-- The entries of a table that map a page. -/
def presentEntries (table : UInt32) (memory : Ram) : List Entry :=
  ((List.range memory.mode.slots).map (memory.entry table)).filter Entry.present

/-- The check before anything is freed: a table belongs to a process and so do the frames it
maps. -/
def tableCanBeReleased (memory : Ram) (tableEntry : Entry) : Bool :=
  tableEntry.user && (presentEntries tableEntry.physical memory).all fun entry ↦
    pmmBlockIsUserOwned entry.physical memory.pmm && pmmUserBlockIsMapped entry.physical memory.pmm

def releasePage (entry : Entry) (pmm : Pmm) : Pmm :=
  pmmFreeBlock entry.physical
    (if entry.user then pmmReleaseUserBlock entry.physical pmm else pmm)

def releaseTable (memory : Ram) (pmm : Pmm) (tableEntry : Entry) : Pmm :=
  pmmFreeBlock tableEntry.physical
    ((presentEntries tableEntry.physical memory).foldl (fun pmm entry ↦ releasePage entry pmm) pmm)

def releaseDirectory (memory : Ram) (pmm : Pmm) (directories : UInt32 × UInt32) : Pmm :=
  let released := (ownTables directories memory).foldl (releaseTable memory) pmm
  match memory.mode with
  | .legacy => released
  | .pae => pmmFreeBlock directories.1 released

/-- Take a directory out of the registry; the last one takes its place. -/
def unregister (directory : UInt32) (spaces : List UInt32) : List UInt32 :=
  match spaces.idxOf? directory with
  | none => spaces
  | some index => (spaces.set index (spaces.getLastD 0)).dropLast

def pagingDestroyAddressSpace (directory : UInt32) (memory : Ram) : Bool × Ram :=
  if directory = memory.kernelPageDirectory ∨ directory = memory.pageDirectory ∨
      pagingAddressSpaceIsValid directory memory = false then (false, memory)
  else
    let directories := ownDirectories directory memory
    if directories.all fun pair ↦ (ownTables pair memory).all (tableCanBeReleased memory) then
      (true, { memory with
        pmm := pmmFreeBlock directory (directories.foldl (releaseDirectory memory) memory.pmm)
        addressSpaces := unregister directory memory.addressSpaces })
    else (false, memory)

end EfesOS.Memory
