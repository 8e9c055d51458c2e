import EfesOS.Foundation.Checked
import EfesOS.Memory.UserRange
import EfesOS.Process.UserProcess

/-!
# The ELF loader

`src/process/elf_loader.c`: check an image, find where it goes, map and fill its pages, and take
them away again. The functions that compute with values of the file are checked: they stop at a sum
that wraps, at a byte behind the end of the image, at a page behind the end of `mapped_pages` and at
a store to a page that the load did not map. `image` is null or the bytes in memory from its address
on; `size` is what the caller says of their number.

The callers of `elf_load_image` all pass it three places for its results.
-/

set_option autoImplicit false

namespace EfesOS.Memory

open EfesOS.Foundation

/-! ### Bytes of memory -/

namespace Page

/-- Where a byte is in its word. -/
def shiftOf (offset : ℕ) : UInt32 := UInt32.ofNat (8 * (offset % 4))

def setByte (page : Page) (offset : ℕ) (value : UInt8) : Page :=
  Function.update page (offset / 4)
    (page (offset / 4) &&& ~~~(0xFF <<< shiftOf offset) ||| value.toUInt32 <<< shiftOf offset)

end Page

/-- A store to an address of the current address space. -/
def Ram.storeByte (address : UInt32) (value : UInt8) (memory : Ram) : Ram :=
  let entry := currentEntry address memory
  if entry.present then
    memory.store entry.physical
      (Page.setByte (memory.frames entry.physical) (address &&& 0xFFF).toNat value)
  else memory

end EfesOS.Memory

namespace EfesOS.Process.Elf

open EfesOS.Foundation EfesOS.Foundation.Checked EfesOS.Memory

/-- Memory from the address of an image on. -/
abbrev Bytes := ℕ → UInt8

abbrev elf32HeaderSize : UInt32 := 52

abbrev elf32ProgramHeaderSize : UInt32 := 32

abbrev elfTypeOffset : UInt32 := 16

abbrev elfMachineOffset : UInt32 := 18

abbrev elfVersionOffset : UInt32 := 20

abbrev elfEntryOffset : UInt32 := 24

abbrev elfPhoffOffset : UInt32 := 28

abbrev elfEhsizeOffset : UInt32 := 40

abbrev elfPhentsizeOffset : UInt32 := 42

abbrev elfPhnumOffset : UInt32 := 44

abbrev elfPtTypeOffset : UInt32 := 0

abbrev elfPtOffsetOffset : UInt32 := 4

abbrev elfPtVaddrOffset : UInt32 := 8

abbrev elfPtFileszOffset : UInt32 := 16

abbrev elfPtMemszOffset : UInt32 := 20

abbrev elfPtFlagsOffset : UInt32 := 24

abbrev elfPtAlignOffset : UInt32 := 28

abbrev elfPtLoad : UInt32 := 1

abbrev elfPtDynamic : UInt32 := 2

abbrev elfEtExec : UInt32 := 2

abbrev elfEtDyn : UInt32 := 3

abbrev elfEm386 : UInt32 := 3

abbrev elfVersionCurrent : UInt32 := 1

abbrev elfFlagExecutable : UInt32 := 1

abbrev elfFlagWritable : UInt32 := 2

abbrev userMinAddress : UInt32 := 0x00400000

abbrev userMaxAddress : UInt32 := 0x40000000

abbrev userStackReservedBase : UInt32 := 0x00800000

abbrev userStackReservedEnd : UInt32 := 0x01800000

abbrev userDynBaseMin : UInt32 := 0x02000000

abbrev userDynBaseMax : UInt32 := 0x30000000

abbrev elfMaxProgramHeaders : UInt32 := 32

abbrev elfMaxImagePages : ℕ := 1024

/-! ### Reading the image -/

/-- `data[offset + step]`. -/
def readByte (data : Bytes) (size offset step : UInt32) : Checked UInt8 := do
  fetch data size (← add offset step)

def readU16 (data : Bytes) (size offset : UInt32) : Checked UInt32 := do
  let low ← fetch data size offset
  let high ← readByte data size offset 1
  pure (low.toUInt32 ||| high.toUInt32 <<< 8)

def readU32 (data : Bytes) (size offset : UInt32) : Checked UInt32 := do
  let byte0 ← fetch data size offset
  let byte1 ← readByte data size offset 1
  let byte2 ← readByte data size offset 2
  let byte3 ← readByte data size offset 3
  pure (byte0.toUInt32 ||| byte1.toUInt32 <<< 8 ||| byte2.toUInt32 <<< 16 |||
    byte3.toUInt32 <<< 24)

def rangeIsInside (offset length size : UInt32) : Checked Bool :=
  if offset ≤ size then do
    let rest ← sub size offset
    pure (decide (length ≤ rest))
  else pure false

def overlapsReservedStack (address length : UInt32) : Checked Bool :=
  if length = 0 ∨ userStackReservedEnd ≤ address then pure false
  else do
    let room ← sub 0xFFFFFFFF address
    if room < length then pure true
    else do
      let stop ← add address length
      pure (decide (userStackReservedBase < stop))

def imageTypeIsSupported (type : UInt32) : Bool := type == elfEtExec || type == elfEtDyn

/-- The pages from the one of an address to the end of a segment. -/
def pageStart (address : UInt32) : UInt32 := address &&& pageAddressMask

def pageEnd (segmentEnd : UInt32) : Checked UInt32 := do
  let roundedUp ← sub (← add segmentEnd pageSize) 1
  pure (roundedUp &&& pageAddressMask)

/-- The pages that a loop visits; its cursor must get past the last of them. -/
def visitPages (first last : UInt32) : Checked (List UInt32) :=
  if last.toNat ≤ 2 ^ 32 - 4096 then .ok (pagesBetween first last) else .error .wraps

/-- What a program header says; `type` is read before the others. -/
structure ProgramHeader where
  fileOffset : UInt32
  virtualAddress : UInt32
  fileSize : UInt32
  memorySize : UInt32
  flags : UInt32
  alignment : UInt32

namespace ProgramHeader

def isWritable (header : ProgramHeader) : Prop := header.flags &&& elfFlagWritable ≠ 0
  deriving Decidable

def isExecutable (header : ProgramHeader) : Prop := header.flags &&& elfFlagExecutable ≠ 0
  deriving Decidable

end ProgramHeader

def headerOffset (phoff : UInt32) (index : ℕ) : Checked UInt32 := do
  add phoff (← mul (UInt32.ofNat index) elf32ProgramHeaderSize)

def readField (data : Bytes) (size offset field : UInt32) : Checked UInt32 := do
  readU32 data size (← add offset field)

/-- The fields of a loadable header. `elf_load_image` has no use for the last one. -/
def readProgramHeader (data : Bytes) (size offset : UInt32) : Checked ProgramHeader := do
  let fileOffset ← readField data size offset elfPtOffsetOffset
  let virtualAddress ← readField data size offset elfPtVaddrOffset
  let fileSize ← readField data size offset elfPtFileszOffset
  let memorySize ← readField data size offset elfPtMemszOffset
  let flags ← readField data size offset elfPtFlagsOffset
  let alignment ← readField data size offset elfPtAlignOffset
  pure ⟨fileOffset, virtualAddress, fileSize, memorySize, flags, alignment⟩

/-! ### Checking an image -/

/-- The first test of `elf_validate_image`, for an image that has a whole header. -/
def headerIsSupported (data : Bytes) (size : UInt32) : Checked Bool := do
  let ident ← [0, 1, 2, 3, 4, 5, 6].mapM (fetch data size)
  let type ← readU16 data size elfTypeOffset
  let machine ← readU16 data size elfMachineOffset
  let version ← readU32 data size elfVersionOffset
  let headerSize ← readU16 data size elfEhsizeOffset
  let programHeaderSize ← readU16 data size elfPhentsizeOffset
  pure (ident == [0x7F, 0x45, 0x4C, 0x46, 1, 1, 1] && imageTypeIsSupported type &&
    machine == elfEm386 && version == elfVersionCurrent && headerSize == elf32HeaderSize &&
    programHeaderSize == elf32ProgramHeaderSize)

/-- What `elf_validate_image` counts on its way through the program headers. -/
structure Tally where
  loadSegments : UInt32
  loadPages : UInt32
  entryExecutable : Bool

/-- The part of the check that says where a segment lies. -/
def segmentIsPlaced (imageType size : UInt32) (header : ProgramHeader) : Checked Bool := do
  let inside ← rangeIsInside header.fileOffset header.fileSize size
  if header.memorySize < header.fileSize ∨ inside = false ∨
      (imageType = elfEtExec ∧
        (header.virtualAddress < userMinAddress ∨ userMaxAddress ≤ header.virtualAddress)) ∨
      (imageType = elfEtDyn ∧ userMaxAddress ≤ header.virtualAddress) then pure false
  else do
    let room ← sub userMaxAddress header.virtualAddress
    if room < header.memorySize then pure false
    else do
      let overlaps ← overlapsReservedStack header.virtualAddress header.memorySize
      pure !(decide (imageType = elfEtExec) && overlaps)

def flagsAreSupported (header : ProgramHeader) : Bool :=
  !(decide header.isWritable && decide header.isExecutable) &&
    (header.alignment == 0 || header.alignment == 1 || header.alignment == 0x1000) &&
    header.flags &&& ~~~(elfFlagExecutable ||| elfFlagWritable ||| 4) == 0

def entryIsIn (imageEntry : UInt32) (header : ProgramHeader) : Checked Bool :=
  if header.isExecutable ∧ header.virtualAddress ≤ imageEntry then do
    let offset ← sub imageEntry header.virtualAddress
    pure (decide (offset < header.memorySize))
  else pure false

def countContents (header : ProgramHeader) (tally : Tally) : Checked UInt32 :=
  if header.fileSize ≠ 0 then add tally.loadSegments 1 else pure tally.loadSegments

/-- A segment with a memory size: count its pages. -/
def countSegment (imageType imageEntry : UInt32) (header : ProgramHeader) (tally : Tally) :
    Checked (Option Tally) := do
  let segmentEnd ← add header.virtualAddress header.memorySize
  let last ← pageEnd segmentEnd
  let first := pageStart header.virtualAddress
  if last < segmentEnd ∨ (imageType = elfEtExec ∧ first < userMinAddress) ∨
      userMaxAddress < last then pure none
  else do
    let segmentPages := (← sub last first) / pageSize
    if UInt32.ofNat elfMaxImagePages < segmentPages then pure none
    else do
      let left ← sub (UInt32.ofNat elfMaxImagePages) segmentPages
      if left < tally.loadPages then pure none
      else if header.alignment = 0x1000 ∧
          header.fileOffset &&& 0xFFF ≠ header.virtualAddress &&& 0xFFF then pure none
      else do
        let loadPages ← add tally.loadPages segmentPages
        let loadSegments ← countContents header tally
        let hit ← entryIsIn imageEntry header
        pure (some ⟨loadSegments, loadPages, tally.entryExecutable || hit⟩)

def validateSegment (imageType imageEntry size : UInt32) (header : ProgramHeader)
    (tally : Tally) : Checked (Option Tally) := do
  let placed ← segmentIsPlaced imageType size header
  if placed = false ∨ flagsAreSupported header = false then pure none
  else if header.memorySize = 0 then pure (some tally)
  else countSegment imageType imageEntry header tally

/-- The loop of `elf_validate_image` from an index on. -/
def validateHeaders (data : Bytes) (size phoff imageType imageEntry : UInt32) :
    List ℕ → Tally → Checked (Option Tally)
  | [], tally => pure (some tally)
  | index :: rest, tally => do
    let offset ← headerOffset phoff index
    let type ← readField data size offset elfPtTypeOffset
    if imageType = elfEtDyn ∧ type = elfPtDynamic then pure none
    else if type ≠ elfPtLoad then validateHeaders data size phoff imageType imageEntry rest tally
    else do
      let header ← readProgramHeader data size offset
      match ← validateSegment imageType imageEntry size header tally with
      | none => pure none
      | some counted => validateHeaders data size phoff imageType imageEntry rest counted

/-- `elf_validate_image`: the entry of an image that can be loaded. -/
def elfValidateImage (image : Option Bytes) (size : UInt32) : Checked (Option UInt32) :=
  match image with
  | none => pure none
  | some data =>
    if size < elf32HeaderSize then pure none
    else do
      let supported ← headerIsSupported data size
      if supported = false then pure none
      else do
        let imageType ← readU16 data size elfTypeOffset
        let phoff ← readU32 data size elfPhoffOffset
        let phnum ← readU16 data size elfPhnumOffset
        if phnum = 0 ∨ elfMaxProgramHeaders < phnum then pure none
        else do
          let inside ← rangeIsInside phoff (← mul phnum elf32ProgramHeaderSize) size
          if inside = false then pure none
          else do
            let imageEntry ← readU32 data size elfEntryOffset
            let tally ← validateHeaders data size phoff imageType imageEntry
              (List.range phnum.toNat) ⟨0, 0, false⟩
            match tally with
            | none => pure none
            | some tally =>
              if tally.loadSegments ≠ 0 ∧ tally.entryExecutable = true then pure (some imageEntry)
              else pure none

/-! ### Choosing where an image goes -/

/-- The loop of `image_bounds`, with `minimum` and `maximum`. -/
def boundsOfHeaders (data : Bytes) (size phoff imageType : UInt32) :
    List ℕ → UInt32 × UInt32 → Checked (Option (UInt32 × UInt32))
  | [], bounds => pure (some bounds)
  | index :: rest, (minimum, maximum) => do
    let offset ← headerOffset phoff index
    let type ← readField data size offset elfPtTypeOffset
    if type ≠ elfPtLoad then boundsOfHeaders data size phoff imageType rest (minimum, maximum)
    else do
      let virtualAddress ← readField data size offset elfPtVaddrOffset
      let memorySize ← readField data size offset elfPtMemszOffset
      if memorySize = 0 then boundsOfHeaders data size phoff imageType rest (minimum, maximum)
      else if userMaxAddress ≤ virtualAddress then pure none
      else do
        let room ← sub userMaxAddress virtualAddress
        if room < memorySize then pure none
        else do
          let segmentEnd ← add virtualAddress memorySize
          let last ← pageEnd segmentEnd
          let first := pageStart virtualAddress
          if last < segmentEnd ∨ userMaxAddress < last ∨
              (imageType = elfEtExec ∧ first < userMinAddress) then pure none
          else
            boundsOfHeaders data size phoff imageType rest
              (if first < minimum then first else minimum, if maximum < last then last else maximum)

def imageBounds (data : Bytes) (size phoff phnum imageType : UInt32) :
    Checked (Option (UInt32 × UInt32)) := do
  match ← boundsOfHeaders data size phoff imageType (List.range phnum.toNat)
      (userMaxAddress, 0) with
  | none => pure none
  | some (minimum, maximum) =>
    if minimum = userMaxAddress ∨ maximum ≤ minimum then pure none
    else pure (some (minimum, maximum))

/-- What the generator of load biases takes its first state from. -/
structure BiasSource where
  stateAddress : UInt32
  hardwareRandom : Option UInt32
  pitTicks : UInt32

def loadBiasSeed (source : BiasSource) : UInt32 :=
  let seed :=
    source.stateAddress ^^^ 0x7E31A5C9 ^^^ source.hardwareRandom.getD 0 ^^^ source.pitTicks
  if seed = 0 then 1 else seed

/-- `next_load_bias_random`: the new value of `load_bias_random_state`. -/
def nextLoadBiasRandom (source : BiasSource) (state : UInt32) : UInt32 :=
  xorshift (if state = 0 then loadBiasSeed source else state)

abbrev biasSlots : UInt32 := (userDynBaseMax - userDynBaseMin) / pageSize

def biasCandidate (random : UInt32) : Checked UInt32 := do
  add userDynBaseMin (← mul (random % biasSlots) pageSize)

/-- One turn of the loop of `dyn_bias_range`: whether the image can go to a bias. -/
def biasFits (imageMin imageEnd candidate : UInt32) (memory : Ram) : Checked Bool :=
  if candidate < imageMin then pure false
  else do
    let limit ← sub userMaxAddress imageEnd
    if limit < candidate then pure false
    else do
      let start ← add candidate imageMin
      let stop ← add candidate imageEnd
      let overlaps ← overlapsReservedStack start (← sub stop start)
      if overlaps then pure false
      else do
        let pages ← visitPages start stop
        pure (pages.all fun page ↦ !pagingIsMapped page memory)

def tryBiases (source : BiasSource) (imageMin imageEnd : UInt32) (memory : Ram) :
    ℕ → UInt32 → Checked (Option UInt32 × UInt32)
  | 0, state => pure (none, state)
  | attempts + 1, state => do
    let state := nextLoadBiasRandom source state
    let candidate ← biasCandidate state
    let fits ← biasFits imageMin imageEnd candidate memory
    if fits then pure (some candidate, state)
    else tryBiases source imageMin imageEnd memory attempts state

def dynBiasRange (source : BiasSource) (imageMin imageEnd : UInt32) (memory : Ram)
    (state : UInt32) : Checked (Option UInt32 × UInt32) :=
  if imageEnd < imageMin ∨ userMaxAddress < imageEnd ∨ imageMin ≠ pageStart imageMin ∨
      imageEnd ≠ pageStart imageEnd ∨ imageEnd = imageMin then pure (none, state)
  else do
    let span ← sub imageEnd imageMin
    if UInt32.ofNat elfMaxImagePages * pageSize < span ∨ userDynBaseMax - userDynBaseMin < span ∨
        userMaxAddress - userDynBaseMin < imageMin ∨ userMaxAddress - userDynBaseMin < imageEnd then
      pure (none, state)
    else tryBiases source imageMin imageEnd memory 32 state

/-! ### Loading -/

/-- `release_pages`. -/
def releasePages : List UInt32 → Ram → Checked Ram
  | [], memory => pure memory
  | page :: rest, memory =>
    let (physical, memory) := pagingUnmapPage page memory
    if physical = 0 then throw (.panic "ELF mapping cleanup failed.")
    else releasePages rest (memory.onPmm (pmmFreeBlock physical))

/-- The pages mapped so far, with memory. -/
structure LoadState where
  memory : Ram
  mappedPages : List UInt32

/-- A part of the load is done, or the load failed and was taken back. -/
inductive Progress where
  | failed (memory : Ram)
  | going (state : LoadState)

def giveUp (state : LoadState) : Checked Progress := do
  let memory ← releasePages state.mappedPages state.memory
  pure (.failed memory)

/-- A store through `virtual_pointer`, to a page that was mapped for the image. -/
def storeUser (address : UInt32) (value : UInt8) (state : LoadState) : Checked LoadState :=
  if pageStart address ∈ state.mappedPages then
    .ok { state with memory := state.memory.storeByte address value }
  else .error .strayStore

/-- The three loops that store bytes one after the other. -/
def storeEach (base : UInt32) (value : UInt32 → Checked UInt8) :
    List ℕ → LoadState → Checked LoadState
  | [], state => pure state
  | index :: rest, state => do
    let address ← add base (UInt32.ofNat index)
    let byte ← value (UInt32.ofNat index)
    storeEach base value rest (← storeUser address byte state)

def clearUserPage (page : UInt32) (state : LoadState) : Checked LoadState :=
  storeEach page (fun _ ↦ pure 0) (List.range 4096) state

/-- Map a fresh frame for a page, or give the frame back. -/
def mapFresh (page : UInt32) (memory : Ram) : Bool × Ram :=
  let (physical, pmm) := pmmAllocUserBlock memory.pmm
  let memory := { memory with pmm := pmm }
  if physical = 0 then (false, memory)
  else
    let (mapped, memory) :=
      pagingMapPage page physical (Memory.pageFlagUser ||| pageFlagWritable) memory
    if mapped then (true, memory) else (false, memory.onPmm (pmmFreeBlock physical))

/-- The loop that maps the pages of a segment. -/
def mapPages : List UInt32 → LoadState → Checked Progress
  | [], state => pure (.going state)
  | page :: rest, state =>
    if state.mappedPages.length = elfMaxImagePages ∨ pagingIsMapped page state.memory = true then
      giveUp state
    else
      let (mapped, memory) := mapFresh page state.memory
      if mapped then do
        let mappedPages ← push elfMaxImagePages state.mappedPages page
        mapPages rest (← clearUserPage page ⟨memory, mappedPages⟩)
      else giveUp { state with memory := memory }

/-- The flags of the pages of a segment. -/
def pageFlagsOf (header : ProgramHeader) : UInt32 :=
  Memory.pageFlagUser ||| (if header.isWritable then pageFlagWritable else 0) |||
    (if header.isExecutable then pageFlagExecutable else 0)

/-- The loop that sets the permissions of the pages of a segment. -/
def protectPages (flags : UInt32) : List UInt32 → LoadState → Checked Progress
  | [], state => pure (.going state)
  | page :: rest, state =>
    let (protected', memory) := pagingProtectPage page flags state.memory
    if protected' then protectPages flags rest { state with memory := memory }
    else giveUp { state with memory := memory }

/-- Copy the bytes of a segment and clear the rest of its pages. -/
def fillSegment (data : Bytes) (size mappedAddress last : UInt32) (header : ProgramHeader)
    (state : LoadState) : Checked LoadState := do
  let copied ← storeEach mappedAddress (readByte data size header.fileOffset)
    (List.range header.fileSize.toNat) state
  let fileEnd ← add mappedAddress header.fileSize
  let rest ← sub last fileEnd
  storeEach fileEnd (fun _ ↦ pure 0) (List.range rest.toNat) copied

/-- Where a segment goes. -/
structure Placement where
  mappedAddress : UInt32
  first : UInt32
  last : UInt32

/-- The checks before the pages of a segment are mapped. -/
def placeSegment (loadBias : UInt32) (header : ProgramHeader) : Checked (Option Placement) := do
  let highest ← sub 0xFFFFFFFF loadBias
  if highest < header.virtualAddress then pure none
  else do
    let mappedAddress ← add header.virtualAddress loadBias
    if userMaxAddress ≤ mappedAddress then pure none
    else do
      let room ← sub userMaxAddress mappedAddress
      if room < header.memorySize then pure none
      else do
        let segmentEnd ← add mappedAddress header.memorySize
        let last ← pageEnd segmentEnd
        let first := pageStart mappedAddress
        let overlaps ← overlapsReservedStack mappedAddress header.memorySize
        if last < segmentEnd ∨ first < userMinAddress ∨ userMaxAddress < last ∨ overlaps = true then
          pure none
        else pure (some ⟨mappedAddress, first, last⟩)

/-- Map, fill and protect the pages of a segment. -/
def loadSegment (data : Bytes) (size : UInt32) (header : ProgramHeader) (place : Placement)
    (state : LoadState) : Checked Progress := do
  let pages ← visitPages place.first place.last
  match ← mapPages pages state with
  | .failed memory => pure (.failed memory)
  | .going mapped => do
    let filled ← fillSegment data size place.mappedAddress place.last header mapped
    protectPages (pageFlagsOf header) pages filled

/-- `image_base` and `image_end`. -/
structure Extent where
  base : UInt32
  stop : UInt32

def Extent.include (extent : Extent) (place : Placement) : Extent where
  base := if place.first < extent.base then place.first else extent.base
  stop := if extent.stop < place.last then place.last else extent.stop

/-- The loop of `elf_load_image` from an index on. -/
def loadHeaders (data : Bytes) (size phoff loadBias : UInt32) :
    List ℕ → Extent → LoadState → Checked (Extent × Progress)
  | [], extent, state => pure (extent, .going state)
  | index :: rest, extent, state => do
    let offset ← headerOffset phoff index
    let type ← readField data size offset elfPtTypeOffset
    if type ≠ elfPtLoad then loadHeaders data size phoff loadBias rest extent state
    else do
      let header ← readProgramHeader data size offset
      if header.memorySize = 0 then loadHeaders data size phoff loadBias rest extent state
      else
        match ← placeSegment loadBias header with
        | none => do pure (extent, ← giveUp state)
        | some place =>
          match ← loadSegment data size header place state with
          | .failed memory => pure (extent, .failed memory)
          | .going loaded =>
            loadHeaders data size phoff loadBias rest (extent.include place) loaded

/-- What `elf_load_image` returns. -/
structure Loaded where
  entry : UInt32
  base : UInt32
  stop : UInt32

/-- The result, with memory and the state of the generator after the call. -/
structure Load where
  loaded : Option Loaded
  memory : Ram
  random : UInt32

/-- The bias of an image; 0 for one with fixed addresses. -/
def chooseBias (source : BiasSource) (imageType relativeMin relativeEnd : UInt32) (memory : Ram)
    (random : UInt32) : Checked (Option UInt32 × UInt32) :=
  if imageType = elfEtDyn then dynBiasRange source relativeMin relativeEnd memory random
  else if imageType = elfEtExec ∧
      (relativeMin < userMinAddress ∨ userMaxAddress < relativeEnd) then pure (none, random)
  else pure (some 0, random)

/-- The end of `elf_load_image`: the entry moves with the image. -/
def finishLoad (imageEntry loadBias : UInt32) (extent : Extent) (state : LoadState)
    (random : UInt32) : Checked Load := do
  let highest ← sub 0xFFFFFFFF loadBias
  if highest < imageEntry then do
    let memory ← releasePages state.mappedPages state.memory
    pure ⟨none, memory, random⟩
  else do
    let entry ← add imageEntry loadBias
    pure ⟨some ⟨entry, extent.base, extent.stop⟩, state.memory, random⟩

/-- The image is valid: find its place and load its segments. -/
def loadValid (source : BiasSource) (data : Bytes) (size imageEntry : UInt32) (memory : Ram)
    (random : UInt32) : Checked Load := do
  let imageType ← readU16 data size elfTypeOffset
  let phoff ← readU32 data size elfPhoffOffset
  let phnum ← readU16 data size elfPhnumOffset
  match ← imageBounds data size phoff phnum imageType with
  | none => pure ⟨none, memory, random⟩
  | some (relativeMin, relativeEnd) =>
    match ← chooseBias source imageType relativeMin relativeEnd memory random with
    | (none, random) => pure ⟨none, memory, random⟩
    | (some loadBias, random) =>
      match ← loadHeaders data size phoff loadBias (List.range phnum.toNat)
          ⟨userMaxAddress, userMinAddress⟩ ⟨memory, []⟩ with
      | (_, .failed memory) => pure ⟨none, memory, random⟩
      | (extent, .going state) => finishLoad imageEntry loadBias extent state random

def elfLoadImage (source : BiasSource) (image : Option Bytes) (size : UInt32) (memory : Ram)
    (random : UInt32) : Checked Load := do
  match image, ← elfValidateImage image size with
  | some data, some imageEntry => loadValid source data size imageEntry memory random
  | _, _ => pure ⟨none, memory, random⟩

end EfesOS.Process.Elf
