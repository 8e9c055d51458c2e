import EfesOS.Foundation.Registers

/-!
# The kernel heap

`src/memory/heap.c` keeps the kernel's heap as a list of blocks in memory: each block is a header
and the bytes behind it, and the list is walked through the pointers in the headers. `Heap` is the
static variables of the file and the bytes of the heap area, so a store through a wrong pointer does
here what it does there.

The pages behind the heap come from the page allocator and the paging code. Here they are any
implementation of the four calls (`Pages`), which may refuse at any time.

Addresses and sizes are natural numbers: the checks keep every sum below 32 bits as long as the
headers are intact. A walk through the list gets one step more than there are bytes in the heap; one
that has not ended by then never does (`Stop.endless`).
-/

set_option autoImplicit false

namespace EfesOS.Memory.KernelHeap

open EfesOS.Foundation.Registers

def heapStart : ℕ := 0xD0000000

def heapMaxSize : ℕ := 16 * 1024 * 1024

abbrev pageSize : ℕ := 4096

abbrev heapAlignment : ℕ := 16

abbrev heapBlockMagic : UInt32 := 0x48454150

abbrev heapCookieSeed : UInt32 := 0xEF05C0DE

abbrev heapBlockFree : UInt32 := 1

/-- The size of `struct heap_block`. -/
abbrev headerSize : ℕ := 32

/-- The size of the canary behind an allocation. -/
abbrev canarySize : ℕ := 4

/-- The fields of `struct heap_block`. -/
inductive Field where
  | magic
  | capacity
  | requested
  | cookie
  | previous
  | next
  | flags
  | reserved
  deriving DecidableEq

def Field.offset : Field → ℕ
  | magic => 0
  | capacity => 4
  | requested => 8
  | cookie => 12
  | previous => 16
  | next => 20
  | flags => 24
  | reserved => 28

/-- A field of the block at an address. -/
def field (block : ℕ) (name : Field) : Register Bytes UInt32 := dword (block + name.offset)

/-- Why a call does not return. -/
inductive Stop where
  | panic (message : String)
  | endless
  deriving DecidableEq

/-- The static variables of `heap.c` and the memory of the heap. -/
structure Heap where
  firstBlock : ℕ
  mappedBytes : ℕ
  usedBytes : ℕ
  initialized : Bool
  memory : Bytes

/-- The page allocator and the paging code. -/
structure Pages (σ : Type) where
  pmmAllocBlock : σ → UInt32 × σ
  pmmFreeBlock : UInt32 → σ → σ
  pagingMapPage : ℕ → UInt32 → σ → Bool × σ
  pagingUnmapPage : ℕ → σ → UInt32 × σ

namespace Heap

def read (heap : Heap) (block : ℕ) (name : Field) : UInt32 := (field block name).get heap.memory

def write (block : ℕ) (name : Field) (value : UInt32) (heap : Heap) : Heap :=
  { heap with memory := (field block name).set value heap.memory }

def capacity (heap : Heap) (block : ℕ) : ℕ := (heap.read block .capacity).toNat

def requested (heap : Heap) (block : ℕ) : ℕ := (heap.read block .requested).toNat

def previous (heap : Heap) (block : ℕ) : ℕ := (heap.read block .previous).toNat

def next (heap : Heap) (block : ℕ) : ℕ := (heap.read block .next).toNat

def isFree (heap : Heap) (block : ℕ) : Bool := decide (heap.read block .flags &&& heapBlockFree ≠ 0)

def blockCookie (heap : Heap) (block : ℕ) : UInt32 :=
  heapCookieSeed ^^^ UInt32.ofNat block ^^^ heap.read block .capacity ^^^ heap.read block .requested

def refreshBlockCookie (block : ℕ) (heap : Heap) : Heap :=
  heap.write block .cookie (heap.blockCookie block)

def heapEnd (heap : Heap) : ℕ := heapStart + heap.mappedBytes

def blockIsValid (heap : Heap) (block : ℕ) : Bool :=
  decide (heapStart ≤ block) && decide (block ≤ heap.heapEnd - headerSize) &&
    heap.read block .magic == heapBlockMagic &&
    decide (heap.capacity block ≤ heap.heapEnd - block - headerSize) &&
    heap.read block .cookie == heap.blockCookie block

def blockCanary (heap : Heap) (block : ℕ) : ℕ := block + headerSize + heap.requested block

def writeCanary (block : ℕ) (heap : Heap) : Heap :=
  { heap with
    memory := (dword (heap.blockCanary block)).set (heap.read block .cookie) heap.memory }

def canaryIsValid (heap : Heap) (block : ℕ) : Bool :=
  (dword (heap.blockCanary block)).get heap.memory == heap.read block .cookie

end Heap

def alignUp (value : ℕ) : ℕ := (value + heapAlignment - 1) / heapAlignment * heapAlignment

/-! ### Growing -/

section Growing

variable {σ : Type} (pages : Pages σ)

def zeroPage (virtualAddress : ℕ) (memory : Bytes) : Bytes := fun place ↦
  if virtualAddress ≤ place ∧ place < virtualAddress + pageSize then 0 else memory place

def rollbackPages (startOffset : ℕ) : ℕ → σ → σ
  | 0, state => state
  | pageCount + 1, state =>
    let (physicalAddress, state) :=
      pages.pagingUnmapPage (heapStart + startOffset + pageCount * pageSize) state
    rollbackPages startOffset pageCount
      (if physicalAddress ≠ 0 then pages.pmmFreeBlock physicalAddress state else state)

/-- The loop that maps the new pages: the number still to be mapped, and of those mapped. -/
def mapPages (oldMappedBytes : ℕ) : ℕ → ℕ → Bytes → σ → Bool × Bytes × σ
  | 0, _, memory, state => (true, memory, state)
  | remaining + 1, mappedPages, memory, state =>
    let virtualAddress := heapStart + oldMappedBytes + mappedPages * pageSize
    let (physicalAddress, state) := pages.pmmAllocBlock state
    if physicalAddress = 0 then
      (false, memory, rollbackPages pages oldMappedBytes mappedPages state)
    else
      let (mapped, state) := pages.pagingMapPage virtualAddress physicalAddress state
      if mapped then
        mapPages oldMappedBytes remaining (mappedPages + 1) (zeroPage virtualAddress memory) state
      else
        (false, memory, rollbackPages pages oldMappedBytes mappedPages
          (pages.pmmFreeBlock physicalAddress state))

/-- The stores of a new block without requests. -/
def newFreeBlock (block capacity previous next : ℕ) (heap : Heap) : Heap :=
  heap.write block .magic heapBlockMagic
    |>.write block .capacity (UInt32.ofNat capacity)
    |>.write block .requested 0
    |>.write block .previous (UInt32.ofNat previous)
    |>.write block .next (UInt32.ofNat next)
    |>.write block .flags heapBlockFree
    |>.write block .reserved 0

/-- The walk to the last block. -/
def findLast (heap : Heap) : ℕ → ℕ → Except Stop ℕ
  | 0, _ => .error .endless
  | steps + 1, last =>
    if heap.blockIsValid last = false then .error (.panic "Kernel heap metadata corruption.")
    else if heap.next last = 0 then .ok last
    else if heap.next last ≤ last then .error (.panic "Kernel heap list order corruption.")
    else findLast heap steps (heap.next last)

/-- What `expand_heap` does with the pages it mapped. -/
def addPages (oldMappedBytes addedBytes : ℕ) (heap : Heap) : Except Stop Heap :=
  let heap := { heap with mappedBytes := heap.mappedBytes + addedBytes }
  if heap.firstBlock = 0 then
    .ok <| newFreeBlock heapStart (addedBytes - headerSize) 0 0
      { heap with firstBlock := heapStart }
      |>.refreshBlockCookie heapStart
  else do
    let last ← findLast heap (heap.mappedBytes + 1) heap.firstBlock
    if heap.isFree last then
      return heap.write last .capacity (UInt32.ofNat (heap.capacity last + addedBytes))
        |>.refreshBlockCookie last
    else
      let newBlock := heapStart + oldMappedBytes
      return newFreeBlock newBlock (addedBytes - headerSize) last 0 heap
        |>.refreshBlockCookie newBlock
        |>.write last .next (UInt32.ofNat newBlock)
        |>.refreshBlockCookie last

def expandHeap (minimumBytes : ℕ) (heap : Heap) (state : σ) : Except Stop (Bool × Heap × σ) :=
  let pageCount := (minimumBytes + pageSize - 1) / pageSize
  let addedBytes := pageCount * pageSize
  if minimumBytes = 0 ∨ heapMaxSize - heap.mappedBytes < minimumBytes then .ok (false, heap, state)
  else if heapMaxSize - heap.mappedBytes < addedBytes then .ok (false, heap, state)
  else
    match mapPages pages heap.mappedBytes pageCount 0 heap.memory state with
    | (false, memory, state) => .ok (false, { heap with memory := memory }, state)
    | (true, memory, state) => do
      let heap ← addPages heap.mappedBytes addedBytes { heap with memory := memory }
      return (true, heap, state)

end Growing

/-! ### Allocating and freeing -/

/-- `find_free_block`, from a block on; 0 for the null pointer. -/
def findFreeBlock (heap : Heap) (capacity : ℕ) : ℕ → ℕ → Except Stop ℕ
  | 0, _ => .error .endless
  | steps + 1, block =>
    if block = 0 then .ok 0
    else if heap.blockIsValid block = false then .error (.panic "Kernel heap list corruption.")
    else if heap.isFree block ∧ capacity ≤ heap.capacity block then .ok block
    else findFreeBlock heap capacity steps (heap.next block)

/-- The end of `split_block` and of `merge_with_next`: the block behind points back. -/
def linkNext (block : ℕ) (heap : Heap) : Heap :=
  if heap.next block = 0 then heap
  else
    let linked := heap.write (heap.next block) .previous (UInt32.ofNat block)
    linked.refreshBlockCookie (linked.next block)

def splitBlock (block capacity : ℕ) (heap : Heap) : Heap :=
  let remainder := block + headerSize + capacity
  if heap.capacity block < capacity + headerSize + heapAlignment then heap
  else
    newFreeBlock remainder (heap.capacity block - capacity - headerSize) block
      (heap.next block) heap
      |> linkNext remainder
      |>.refreshBlockCookie remainder
      |>.write block .capacity (UInt32.ofNat capacity)
      |>.write block .next (UInt32.ofNat remainder)
      |>.refreshBlockCookie block

def mergeWithNext (block : ℕ) (heap : Heap) : Except Stop Heap :=
  let following := heap.next block
  if following = 0 then .ok heap
  else if heap.blockIsValid following = false then
    .error (.panic "Kernel heap next-block corruption.")
  else if heap.isFree following = false then .ok heap
  else if block + headerSize + heap.capacity block ≠ following then
    .error (.panic "Kernel heap adjacency corruption.")
  else
    .ok <| heap.write block .capacity
        (UInt32.ofNat (heap.capacity block + headerSize + heap.capacity following))
      |>.write block .next (heap.read following .next)
      |> linkNext block
      |>.refreshBlockCookie block

section Calls

variable {σ : Type} (pages : Pages σ)

def heapInit (heap : Heap) (state : σ) : Except Stop (Bool × Heap × σ) :=
  if heap.initialized then .ok (true, heap, state)
  else do
    let (result, heap, state) ← expandHeap pages pageSize heap state
    return (result, { heap with initialized := heap.initialized || result }, state)

/-- Mark a block as allocated. -/
def takeBlock (block size : ℕ) (heap : Heap) : Heap :=
  let requestedHeap := heap.write block .requested (UInt32.ofNat size)
  let taken := requestedHeap.write block .flags
    (requestedHeap.read block .flags &&& ~~~heapBlockFree)
  { taken with usedBytes := taken.usedBytes + size }
    |>.refreshBlockCookie block
    |>.writeCanary block

def kmalloc (size : ℕ) (heap : Heap) (state : σ) : Except Stop (ℕ × Heap × σ) :=
  if heap.initialized = false ∨ size = 0 ∨ heapMaxSize - canarySize - heapAlignment < size then
    .ok (0, heap, state)
  else do
    let requiredCapacity := alignUp (size + canarySize)
    let found ← findFreeBlock heap requiredCapacity (heap.mappedBytes + 1) heap.firstBlock
    if found ≠ 0 then
      return (found + headerSize,
        takeBlock found size (splitBlock found requiredCapacity heap), state)
    else
      let (expanded, heap, state) ← expandHeap pages (requiredCapacity + headerSize) heap state
      if expanded then
        let block ← findFreeBlock heap requiredCapacity (heap.mappedBytes + 1) heap.firstBlock
        if block = 0 then return (0, heap, state)
        else
          return (block + headerSize, takeBlock block size (splitBlock block requiredCapacity heap),
            state)
      else return (0, heap, state)

/-- The loop of `kcalloc` that clears the allocation. -/
def clearBytes (start length : ℕ) (heap : Heap) : Heap :=
  { heap with
    memory := fun place ↦
      if start ≤ place ∧ place < start + length then 0 else heap.memory place }

def kcalloc (count size : ℕ) (heap : Heap) (state : σ) : Except Stop (ℕ × Heap × σ) :=
  if count ≠ 0 ∧ 0xFFFFFFFF / count < size then .ok (0, heap, state)
  else do
    let (memory, heap, state) ← kmalloc pages (count * size) heap state
    if memory = 0 then return (0, heap, state)
    else return (memory, clearBytes memory (count * size) heap, state)

end Calls

/-- Mark a block as free. -/
def returnBlock (block : ℕ) (heap : Heap) : Heap :=
  let counted := { heap with usedBytes := heap.usedBytes - heap.requested block }
  let unrequested := counted.write block .requested 0
  unrequested.write block .flags (unrequested.read block .flags ||| heapBlockFree)
    |>.refreshBlockCookie block

def kfree (pointer : ℕ) (heap : Heap) : Except Stop Heap :=
  let block := pointer - headerSize
  if pointer = 0 then .ok heap
  else if pointer < heapStart + headerSize ∨ heapStart + heap.mappedBytes ≤ pointer ∨
      pointer % heapAlignment ≠ 0 then .error (.panic "Invalid kernel heap free.")
  else if heap.blockIsValid block = false ∨ heap.isFree block = true ∨
      heap.capacity block < canarySize ∨
      heap.capacity block - canarySize < heap.requested block ∨
      heap.canaryIsValid block = false then
    .error (.panic "Kernel heap overrun or double free.")
  else do
    let merged ← mergeWithNext block (returnBlock block heap)
    if merged.previous block = 0 then return merged
    else if merged.blockIsValid (merged.previous block) = false then
      .error (.panic "Kernel heap previous-block corruption.")
    else if merged.isFree (merged.previous block) then
      mergeWithNext (merged.previous block) merged
    else return merged

def heapMappedBytes (heap : Heap) : ℕ := heap.mappedBytes

def heapUsedBytes (heap : Heap) : ℕ := heap.usedBytes

end EfesOS.Memory.KernelHeap
