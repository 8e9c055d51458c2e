import EfesOS.Memory.Pmm

/-!
# The memory map of the firmware

`pmm_init` takes the ranges that the firmware reports, first those it calls available, rounded
inwards to whole blocks, then all others, rounded outwards, and last the low megabyte, the image of
the kernel and the window of the framebuffer. `Charted` is what the bitmaps have in common on the
way: exactly the usable blocks are free, and the counter counts them.

`pmmInit_free_iff` says which blocks are free in the end, in terms of sets of addresses. The order
of the ranges and their overlaps do not matter.
-/

set_option autoImplicit false

namespace EfesOS.Memory

/-! ### The boot information -/

abbrev bootInfoMagic : UInt32 := 0x534F4645

abbrev bootInfoMaxMemoryMapEntries : UInt32 := 32

abbrev bootMemoryAvailable : UInt32 := 1

abbrev bootVideoFontAvailable : UInt32 := 1

abbrev bootInfoKnownFlags : UInt32 := 3

abbrev bootMemoryKnownAttributes : UInt32 := 3

/-- `struct boot_memory_map_entry`. -/
structure MemoryMapEntry where
  baseLow : UInt32
  baseHigh : UInt32
  lengthLow : UInt32
  lengthHigh : UInt32
  type : UInt32
  attributes : UInt32

namespace MemoryMapEntry

def base (entry : MemoryMapEntry) : UInt64 :=
  entry.baseHigh.toUInt64 <<< 32 ||| entry.baseLow.toUInt64

def length (entry : MemoryMapEntry) : UInt64 :=
  entry.lengthHigh.toUInt64 <<< 32 ||| entry.lengthLow.toUInt64

/-- Whether the entry counts at all. -/
def enabled (entry : MemoryMapEntry) : Bool := entry.attributes &&& 1 != 0

def available (entry : MemoryMapEntry) : Bool := entry.type == bootMemoryAvailable

end MemoryMapEntry

/-- `struct boot_info`; the size of an entry is 24 bytes. -/
structure BootInfo where
  magic : UInt32
  bootDrive : UInt32
  memoryMapEntryCount : UInt32
  memoryMapEntrySize : UInt32
  vgaFontAddress : UInt32
  videoFlags : UInt32
  memoryMap : ℕ → MemoryMapEntry
  acpiRsdpAddress : UInt32

namespace BootInfo

/-- The entries that are there. -/
def entries (info : BootInfo) : List MemoryMapEntry :=
  (List.range info.memoryMapEntryCount.toNat).map info.memoryMap

def headerIsValid (info : BootInfo) : Prop :=
  info.magic = bootInfoMagic ∧ info.bootDrive ≤ 0xFF ∧ info.memoryMapEntrySize = 24 ∧
    info.memoryMapEntryCount ≠ 0 ∧ info.memoryMapEntryCount ≤ bootInfoMaxMemoryMapEntries ∧
    info.videoFlags &&& ~~~bootInfoKnownFlags = 0 ∧
    (info.videoFlags &&& bootVideoFontAvailable ≠ 0 →
      0x1000 ≤ info.vgaFontAddress ∧ info.vgaFontAddress < 0x003FF000) ∧
    (info.videoFlags &&& bootVideoFontAvailable = 0 → info.vgaFontAddress = 0) ∧
    (info.acpiRsdpAddress ≠ 0 → info.acpiRsdpAddress &&& 0x0F = 0 ∧
      (0x00080000 ≤ info.acpiRsdpAddress ∧ info.acpiRsdpAddress < 0x000A0000 ∨
        0x000E0000 ≤ info.acpiRsdpAddress ∧ info.acpiRsdpAddress < 0x00100000))
  deriving Decidable

end BootInfo

/-- The range of an entry is not empty and ends below 2^64. -/
def MemoryMapEntry.isValid (entry : MemoryMapEntry) : Prop :=
  entry.length ≠ 0 ∧ ¬entry.base + entry.length < entry.base ∧ entry.type ≠ 0 ∧
    entry.attributes &&& ~~~bootMemoryKnownAttributes = 0
  deriving Decidable

def bootInfoIsValid (info : BootInfo) : Bool :=
  decide info.headerIsValid && info.entries.all fun entry ↦ decide entry.isValid

/-- The two passes over the entries: first the available ones, then all others. -/
def e820ApplyMemoryMap {σ : Type} (info : BootInfo)
    (usableHandler reservedHandler : UInt64 → UInt64 → σ → σ) (context : σ) : Option σ :=
  if bootInfoIsValid info then
    let released := (info.entries.filter fun entry ↦ entry.enabled && entry.available).foldl
      (fun context entry ↦ usableHandler entry.base entry.length context) context
    some ((info.entries.filter fun entry ↦ entry.enabled && !entry.available).foldl
      (fun context entry ↦ reservedHandler entry.base entry.length context) released)
  else none

/-! ### The bitmaps -/

namespace PmmBits

def releaseE820Range (base length : UInt64) (bits : PmmBits) : PmmBits :=
  if length = 0 ∨ base + length < base then bits
  else
    let firstBlock := clampBlockIndex
      (if base &&& 0xFFF ≠ 0 then (base >>> 12).toNat + 1 else (base >>> 12).toNat)
    let endBlock := clampBlockIndex ((base + length) >>> 12).toNat
    (blocksBetween firstBlock endBlock).foldl markBlockAvailable
      { bits with detectedBlocks := max bits.detectedBlocks endBlock }

def reserveE820Range (base length : UInt64) (bits : PmmBits) : PmmBits :=
  if length = 0 ∨ base + length < base then bits
  else
    let firstBlock := clampBlockIndex (base >>> 12).toNat
    let endBlock := clampBlockIndex
      (if (base + length) &&& 0xFFF ≠ 0 then ((base + length) >>> 12).toNat + 1
      else ((base + length) >>> 12).toNat)
    (blocksBetween firstBlock endBlock).foldl markBlockReserved bits

/-- `pmm_reserve_range` before the first allocation. -/
def reserveRange (address length : UInt32) (bits : PmmBits) : PmmBits :=
  (blocksOfRange address length).foldl markBlockReserved bits

/-- The bitmaps before the memory map is read: nothing is usable. -/
def blank : PmmBits where
  bitmap _ := true
  usableBitmap _ := false
  userBitmap _ := false
  userMappedBitmap _ := false
  detectedBlocks := 0
  managedBlocks := 0
  usedManagedBlocks := 0

end PmmBits

abbrev pmmBootstrapReservedEnd : UInt32 := 0x00100000

abbrev pmmFramebufferBase : UInt32 := 0xE0000000

/-- `PMM_FRAMEBUFFER_PAGES * PMM_BLOCK_SIZE`. -/
abbrev pmmFramebufferLength : UInt32 := 0x00300000

/-- The bitmaps after the memory map and the kernel's own ranges. -/
def pmmInitBits (info : BootInfo) (kernelStart kernelEnd : UInt32) : Option PmmBits :=
  (e820ApplyMemoryMap info PmmBits.releaseE820Range PmmBits.reserveE820Range PmmBits.blank).map
    fun bits ↦ ((bits.reserveRange 0 pmmBootstrapReservedEnd).reserveRange kernelStart
      (kernelEnd - kernelStart)).reserveRange pmmFramebufferBase pmmFramebufferLength

/-! ### What the passes leave -/

/-- Exactly the usable blocks are free. -/
structure Charted (bits : PmmBits) : Prop where
  detected_le : bits.detectedBlocks ≤ pmmMaxBlocks
  free : ∀ block, bits.bitmap block = !bits.usableBitmap block
  detected : ∀ block, bits.usableBitmap block = true → block < bits.detectedBlocks
  user : ∀ block, bits.userBitmap block = false
  mapped : ∀ block, bits.userMappedBitmap block = false
  managed : bits.managedBlocks.toNat = countUsable bits.usableBitmap
  used : bits.usedManagedBlocks = 0

theorem charted_blank : Charted PmmBits.blank where
  detected_le := Nat.zero_le _
  free _ := rfl
  detected _ := nofun
  user _ := rfl
  mapped _ := rfl
  managed := by simp [PmmBits.blank, countUsable]
  used := rfl

theorem countUsable_le (usableBitmap : ℕ → Bool) : countUsable usableBitmap ≤ pmmMaxBlocks :=
  (Finset.card_filter_le _ _).trans_eq (Finset.card_range _)

theorem countUsable_add {usableBitmap : ℕ → Bool} {block : ℕ} (hblock : block < pmmMaxBlocks)
    (husable : usableBitmap block = false) :
    countUsable (Function.update usableBitmap block true) = countUsable usableBitmap + 1 := by
  have hself : Function.update usableBitmap block true block = true := Function.update_self _ _ _
  rw [← Pmm.countUsable_remove hself hblock, Function.update_idem, ← husable,
    Function.update_eq_self]

section Passes

variable {bits : PmmBits} {block : ℕ}

theorem Charted.markBlockAvailable (h : Charted bits) (hblock : block < bits.detectedBlocks) :
    Charted (bits.markBlockAvailable block) ∧
      (bits.markBlockAvailable block).detectedBlocks = bits.detectedBlocks ∧
      ∀ other, (bits.markBlockAvailable block).usableBitmap other = true ↔
        bits.usableBitmap other = true ∨ other = block := by
  have hmax := hblock.trans_le h.detected_le
  unfold PmmBits.markBlockAvailable
  cases husable : bits.usableBitmap block with
  | true =>
    rw [if_pos (.inr rfl)]
    refine ⟨h, rfl, fun other ↦ ⟨.inl, fun hother ↦ hother.elim id ?_⟩⟩
    rintro rfl
    exact husable
  | false =>
    rw [if_neg (by simp [hmax])]
    have hadd := countUsable_add hmax husable
    refine ⟨⟨h.detected_le, ?_, ?_, h.user, h.mapped, ?_, h.used⟩, rfl, ?_⟩
    · intro other
      by_cases heq : other = block
      · simp [heq]
      · simp [heq, h.free other]
    · intro other hother
      by_cases heq : other = block
      · rw [heq]
        exact hblock
      · refine h.detected other ?_
        simpa [heq] using hother
    · have hbound := countUsable_le (Function.update bits.usableBitmap block true)
      rw [hadd] at hbound ⊢
      rw [UInt32.toNat_add, h.managed, Nat.mod_eq_of_lt]
      · rfl
      · exact hbound.trans_lt (by decide)
    · intro other
      by_cases heq : other = block
      · simp [heq]
      · simp [heq]

theorem Charted.markBlockReserved (h : Charted bits) (block : ℕ) :
    Charted (bits.markBlockReserved block) ∧
      (bits.markBlockReserved block).detectedBlocks = bits.detectedBlocks ∧
      ∀ other, (bits.markBlockReserved block).usableBitmap other = true ↔
        bits.usableBitmap other = true ∧ other ≠ block := by
  unfold PmmBits.markBlockReserved
  by_cases hblock : block < pmmMaxBlocks
  swap
  · rw [if_pos (not_lt.1 hblock)]
    refine ⟨h, rfl, fun other ↦ ⟨fun hother ↦ ⟨hother, ?_⟩, And.left⟩⟩
    rintro rfl
    exact hblock ((h.detected other hother).trans_le h.detected_le)
  rw [if_neg (not_le.2 hblock)]
  cases husable : bits.usableBitmap block with
  | false =>
    have hused : bits.bitmap block = true := by rw [h.free, husable]; rfl
    have hsame : Function.update bits.bitmap block true = bits.bitmap := by
      rw [← hused, Function.update_eq_self]
    simp only [hsame, Bool.false_eq_true, if_false]
    refine ⟨h, trivial, fun other ↦ ⟨fun hother ↦ ⟨hother, ?_⟩, And.left⟩⟩
    rintro rfl
    rw [husable] at hother
    cases hother
  | true =>
    have hfree : bits.bitmap block = false := by rw [h.free, husable]; rfl
    have hremove := Pmm.countUsable_remove husable hblock
    simp only [if_true, hfree, Bool.false_eq_true, if_false]
    refine ⟨⟨h.detected_le, ?_, ?_, h.user, h.mapped, ?_, h.used⟩, trivial, ?_⟩
    · intro other
      by_cases heq : other = block
      · simp [heq]
      · simp [heq, h.free other]
    · intro other hother
      refine h.detected other ?_
      by_cases heq : other = block
      · rw [heq]
        exact husable
      · simpa [heq] using hother
    · exact Pmm.toNat_sub_one (hremove.trans h.managed.symm)
    · intro other
      by_cases heq : other = block
      · simp [heq]
      · simp [heq]

theorem Charted.foldl_available (h : Charted bits) (blocks : List ℕ)
    (hblocks : ∀ block ∈ blocks, block < bits.detectedBlocks) :
    Charted (blocks.foldl PmmBits.markBlockAvailable bits) ∧
      ∀ other, (blocks.foldl PmmBits.markBlockAvailable bits).usableBitmap other = true ↔
        bits.usableBitmap other = true ∨ other ∈ blocks := by
  induction blocks generalizing bits with
  | nil => exact ⟨h, fun other ↦ by simp⟩
  | cons block rest ih =>
    obtain ⟨hstep, hdetected, husable⟩ := h.markBlockAvailable (hblocks block List.mem_cons_self)
    obtain ⟨hrest, hall⟩ := ih hstep fun other hother ↦ by
      rw [hdetected]
      exact hblocks other (List.mem_cons_of_mem _ hother)
    refine ⟨hrest, fun other ↦ ?_⟩
    rw [List.foldl_cons, hall, husable, List.mem_cons, or_assoc]

theorem Charted.foldl_reserved (h : Charted bits) (blocks : List ℕ) :
    Charted (blocks.foldl PmmBits.markBlockReserved bits) ∧
      ∀ other, (blocks.foldl PmmBits.markBlockReserved bits).usableBitmap other = true ↔
        bits.usableBitmap other = true ∧ other ∉ blocks := by
  induction blocks generalizing bits with
  | nil => exact ⟨h, fun other ↦ by simp⟩
  | cons block rest ih =>
    obtain ⟨hstep, -, husable⟩ := h.markBlockReserved block
    obtain ⟨hrest, hall⟩ := ih hstep
    refine ⟨hrest, fun other ↦ ?_⟩
    rw [List.foldl_cons, hall, husable, List.mem_cons, not_or, and_assoc]

end Passes

/-! ### Blocks and ranges of addresses -/

/-- The block lies entirely in a range of addresses. -/
def Inside (block start stop : ℕ) : Prop :=
  start ≤ block * pmmBlockSize ∧ (block + 1) * pmmBlockSize ≤ stop
  deriving Decidable

/-- The block has an address of a range. -/
def Meets (block start stop : ℕ) : Prop :=
  start < (block + 1) * pmmBlockSize ∧ block * pmmBlockSize < stop
  deriving Decidable

theorem mem_blocksBetween {block first last : ℕ} :
    block ∈ blocksBetween first last ↔ first ≤ block ∧ block < last := by
  rw [blocksBetween, List.mem_range'_1]
  omega

theorem clampBlockIndex_le {block value : ℕ} (hblock : block < pmmMaxBlocks) :
    clampBlockIndex value ≤ block ↔ value ≤ block := by
  rw [clampBlockIndex, min_le_iff]
  exact or_iff_left (not_le.2 hblock)

theorem lt_clampBlockIndex {block value : ℕ} (hblock : block < pmmMaxBlocks) :
    block < clampBlockIndex value ↔ block < value := by
  rw [clampBlockIndex, lt_min_iff]
  exact and_iff_left hblock

theorem toNat_shiftRight_page (word : UInt64) : (word >>> 12).toNat = word.toNat / 4096 := by
  exact Nat.shiftRight_eq_div_pow word.toNat 12

theorem and_page_ne_zero (word : UInt64) : word &&& 0xFFF ≠ 0 ↔ word.toNat % 4096 ≠ 0 := by
  have hmask : (word &&& 0xFFF).toNat = word.toNat % 2 ^ 12 := by
    exact Nat.and_two_pow_sub_one_eq_mod word.toNat 12
  rw [ne_eq, ← UInt64.toNat_inj, hmask]
  rfl

/-- A range that ends below 2^64. -/
def InSpace (base length : UInt64) : Prop := length ≠ 0 ∧ ¬base + length < base

theorem InSpace.toNat_add {base length : UInt64} (h : InSpace base length) :
    (base + length).toNat = base.toNat + length.toNat := by
  have hlt := h.2
  have hlength := length.toNat_lt
  rw [UInt64.lt_iff_toNat_lt, UInt64.toNat_add] at hlt
  rw [UInt64.toNat_add]
  omega

section Ranges

variable {bits : PmmBits} {base length : UInt64}

theorem Charted.releaseE820Range (h : Charted bits) (hrange : InSpace base length) :
    Charted (bits.releaseE820Range base length) ∧ ∀ block < pmmMaxBlocks,
      (bits.releaseE820Range base length).usableBitmap block = true ↔
        bits.usableBitmap block = true ∨
          Inside block base.toNat (base.toNat + length.toNat) := by
  unfold PmmBits.releaseE820Range
  rw [if_neg (not_or.2 hrange)]
  generalize hend : clampBlockIndex ((base + length) >>> 12).toNat = endBlock
  have hwide : Charted { bits with detectedBlocks := max bits.detectedBlocks endBlock } := by
    refine ⟨max_le h.detected_le ?_, h.free, ?_, h.user, h.mapped, h.managed, h.used⟩
    · rw [← hend]
      exact min_le_right _ _
    · exact fun block hblock ↦ (h.detected block hblock).trans_le (le_max_left _ _)
  obtain ⟨hcharted, husable⟩ := hwide.foldl_available (blocksBetween (clampBlockIndex
    (if base &&& 0xFFF ≠ 0 then (base >>> 12).toNat + 1 else (base >>> 12).toNat)) endBlock)
    fun block hblock ↦ (mem_blocksBetween.1 hblock).2.trans_le (le_max_right _ _)
  refine ⟨hcharted, fun block hblock ↦ ?_⟩
  rw [husable, mem_blocksBetween, clampBlockIndex_le hblock, ← hend, lt_clampBlockIndex hblock,
    toNat_shiftRight_page, toNat_shiftRight_page, hrange.toNat_add]
  refine or_congr_right ?_
  simp only [and_page_ne_zero, Inside]
  change _ ↔ base.toNat ≤ block * 4096 ∧ (block + 1) * 4096 ≤ base.toNat + length.toNat
  split_ifs <;> omega

theorem Charted.reserveE820Range (h : Charted bits) (hrange : InSpace base length) :
    Charted (bits.reserveE820Range base length) ∧ ∀ block < pmmMaxBlocks,
      (bits.reserveE820Range base length).usableBitmap block = true ↔
        bits.usableBitmap block = true ∧
          ¬Meets block base.toNat (base.toNat + length.toNat) := by
  unfold PmmBits.reserveE820Range
  rw [if_neg (not_or.2 hrange)]
  obtain ⟨hcharted, husable⟩ := h.foldl_reserved (blocksBetween
    (clampBlockIndex (base >>> 12).toNat) (clampBlockIndex
      (if (base + length) &&& 0xFFF ≠ 0 then ((base + length) >>> 12).toNat + 1
      else ((base + length) >>> 12).toNat)))
  refine ⟨hcharted, fun block hblock ↦ ?_⟩
  rw [husable, mem_blocksBetween, clampBlockIndex_le hblock, lt_clampBlockIndex hblock]
  refine and_congr_right fun _ ↦ not_congr ?_
  simp only [and_page_ne_zero, toNat_shiftRight_page, hrange.toNat_add, Meets]
  change _ ↔ base.toNat < (block + 1) * 4096 ∧ block * 4096 < base.toNat + length.toNat
  split_ifs <;> omega

theorem Charted.reserveRange (h : Charted bits) (address size : UInt32) (hsize : size ≠ 0) :
    Charted (bits.reserveRange address size) ∧ ∀ block < pmmMaxBlocks,
      (bits.reserveRange address size).usableBitmap block = true ↔
        bits.usableBitmap block = true ∧
          ¬Meets block address.toNat (address.toNat + size.toNat) := by
  obtain ⟨hcharted, husable⟩ := h.foldl_reserved (blocksOfRange address size)
  refine ⟨hcharted, fun block hblock ↦ ?_⟩
  rw [PmmBits.reserveRange, husable, blocksOfRange, if_neg hsize, mem_blocksBetween,
    lt_clampBlockIndex hblock]
  refine and_congr_right fun _ ↦ not_congr ?_
  change address.toNat / 4096 ≤ block ∧ block < (address.toNat + size.toNat + 4096 - 1) / 4096 ↔
    address.toNat < (block + 1) * 4096 ∧ block * 4096 < address.toNat + size.toNat
  omega

/-- The range of an entry as a set of addresses. -/
def MemoryMapEntry.Contains (entry : MemoryMapEntry) (block : ℕ) : Prop :=
  Inside block entry.base.toNat (entry.base.toNat + entry.length.toNat)
  deriving Decidable

def MemoryMapEntry.Touches (entry : MemoryMapEntry) (block : ℕ) : Prop :=
  Meets block entry.base.toNat (entry.base.toNat + entry.length.toNat)
  deriving Decidable

theorem MemoryMapEntry.isValid.inSpace {entry : MemoryMapEntry} (h : entry.isValid) :
    InSpace entry.base entry.length := ⟨h.1, h.2.1⟩

theorem Charted.foldl_release (h : Charted bits) (entries : List MemoryMapEntry)
    (hvalid : ∀ entry ∈ entries, entry.isValid) :
    Charted (entries.foldl (fun bits entry ↦ bits.releaseE820Range entry.base entry.length) bits) ∧
      ∀ block < pmmMaxBlocks, (entries.foldl (fun bits entry ↦
        bits.releaseE820Range entry.base entry.length) bits).usableBitmap block = true ↔
        bits.usableBitmap block = true ∨ ∃ entry ∈ entries, entry.Contains block := by
  induction entries generalizing bits with
  | nil => exact ⟨h, fun block _ ↦ by simp⟩
  | cons entry rest ih =>
    obtain ⟨hstep, husable⟩ := h.releaseE820Range (hvalid entry List.mem_cons_self).inSpace
    obtain ⟨hrest, hall⟩ := ih hstep fun other hother ↦
      hvalid other (List.mem_cons_of_mem _ hother)
    refine ⟨hrest, fun block hblock ↦ ?_⟩
    rw [List.foldl_cons, hall block hblock, husable block hblock, or_assoc]
    refine or_congr_right ?_
    simp only [List.mem_cons, exists_eq_or_imp, MemoryMapEntry.Contains]

theorem Charted.foldl_reserve (h : Charted bits) (entries : List MemoryMapEntry)
    (hvalid : ∀ entry ∈ entries, entry.isValid) :
    Charted (entries.foldl (fun bits entry ↦ bits.reserveE820Range entry.base entry.length) bits) ∧
      ∀ block < pmmMaxBlocks, (entries.foldl (fun bits entry ↦
        bits.reserveE820Range entry.base entry.length) bits).usableBitmap block = true ↔
        bits.usableBitmap block = true ∧ ∀ entry ∈ entries, ¬entry.Touches block := by
  induction entries generalizing bits with
  | nil => exact ⟨h, fun block _ ↦ by simp⟩
  | cons entry rest ih =>
    obtain ⟨hstep, husable⟩ := h.reserveE820Range (hvalid entry List.mem_cons_self).inSpace
    obtain ⟨hrest, hall⟩ := ih hstep fun other hother ↦
      hvalid other (List.mem_cons_of_mem _ hother)
    refine ⟨hrest, fun block hblock ↦ ?_⟩
    rw [List.foldl_cons, hall block hblock, husable block hblock, and_assoc, List.forall_mem_cons]
    rfl

end Ranges

/-! ### The allocator after the memory map -/

/-- The ranges that are never handed out: the low megabyte, the kernel and the framebuffer. -/
def KeptBack (kernelStart kernelEnd : UInt32) (block : ℕ) : Prop :=
  Meets block 0 0x00100000 ∨ Meets block kernelStart.toNat kernelEnd.toNat ∨
    Meets block 0xE0000000 (0xE0000000 + 768 * 4096)
  deriving Decidable

/-- The blocks that the firmware and the kernel let be used. -/
def MayBeUsed (info : BootInfo) (kernelStart kernelEnd : UInt32) (block : ℕ) : Prop :=
  (∃ entry ∈ info.entries, entry.enabled = true ∧ entry.available = true ∧ entry.Contains block) ∧
    (∀ entry ∈ info.entries, entry.enabled = true → entry.available = false →
      ¬entry.Touches block) ∧
    ¬KeptBack kernelStart kernelEnd block
  deriving Decidable

theorem isValid_of_mem_entries {info : BootInfo} (hvalid : bootInfoIsValid info = true)
    {entry : MemoryMapEntry} (hentry : entry ∈ info.entries) : entry.isValid := by
  rw [bootInfoIsValid, Bool.and_eq_true, List.all_eq_true] at hvalid
  exact of_decide_eq_true (hvalid.2 entry hentry)

section Init

variable {info : BootInfo} {kernelStart kernelEnd : UInt32} {bits : PmmBits}

theorem charted_pmmInitBits (hkernel : kernelStart < kernelEnd)
    (hbits : pmmInitBits info kernelStart kernelEnd = some bits) :
    Charted bits ∧ ∀ block < pmmMaxBlocks, bits.usableBitmap block = true ↔
      MayBeUsed info kernelStart kernelEnd block := by
  unfold pmmInitBits e820ApplyMemoryMap at hbits
  split at hbits
  swap
  · cases hbits
  next hvalid =>
  simp only [Option.map_some, Option.some.injEq] at hbits
  have hentries : ∀ (p : MemoryMapEntry → Bool), ∀ entry ∈ info.entries.filter p, entry.isValid :=
    fun p entry hentry ↦ isValid_of_mem_entries hvalid (List.mem_of_mem_filter hentry)
  obtain ⟨hreleased, husable⟩ := charted_blank.foldl_release _
    (hentries fun entry ↦ entry.enabled && entry.available)
  obtain ⟨hreserved, hkept⟩ := hreleased.foldl_reserve _
    (hentries fun entry ↦ entry.enabled && !entry.available)
  have hsize : kernelEnd - kernelStart ≠ 0 := by
    intro hzero
    have hnat := congrArg UInt32.toNat hzero
    rw [UInt32.toNat_sub_of_le _ _ (UInt32.le_of_lt hkernel)] at hnat
    rw [UInt32.lt_iff_toNat_lt] at hkernel
    change kernelEnd.toNat - kernelStart.toNat = 0 at hnat
    omega
  have hstop : kernelStart.toNat + (kernelEnd - kernelStart).toNat = kernelEnd.toNat := by
    rw [UInt32.toNat_sub_of_le _ _ (UInt32.le_of_lt hkernel)]
    rw [UInt32.lt_iff_toNat_lt] at hkernel
    omega
  obtain ⟨hlow, hlowUsable⟩ := hreserved.reserveRange 0 pmmBootstrapReservedEnd (by decide)
  obtain ⟨himage, himageUsable⟩ := hlow.reserveRange kernelStart (kernelEnd - kernelStart) hsize
  obtain ⟨hall, hallUsable⟩ := himage.reserveRange pmmFramebufferBase pmmFramebufferLength
    (by decide)
  rw [← hbits]
  refine ⟨hall, fun block hblock ↦ ?_⟩
  rw [hallUsable block hblock, himageUsable block hblock, hlowUsable block hblock,
    hkept block hblock, husable block hblock, hstop, MayBeUsed, KeptBack]
  simp only [PmmBits.blank, Bool.false_eq_true, false_or, List.mem_filter, Bool.and_eq_true,
    Bool.not_eq_true', not_or, and_assoc, and_imp]
  rfl

/-- A block that meets none of the ranges of the kernel is above the low megabyte. -/
theorem low_le_of_mayBeUsed {block : ℕ} (h : MayBeUsed info kernelStart kernelEnd block) :
    pmmLowBlocks ≤ block := by
  by_contra hlow
  refine h.2.2 (.inl ⟨?_, ?_⟩)
  · change 0 < (block + 1) * 4096
    omega
  · change block * 4096 < 1048576
    have hlt : block < 256 := not_le.1 hlow
    omega

/-- The allocator of a chart. -/
def pmmOfChart (bits : PmmBits) (hcharted : Charted bits)
    (hlow : ∀ block, bits.usableBitmap block = true → pmmLowBlocks ≤ block) : Pmm where
  toPmmBits := bits
  detected_le := hcharted.detected_le
  free_spec block hfree := by
    rw [hcharted.free, Bool.not_eq_false'] at hfree
    exact ⟨hfree, hlow block hfree, hcharted.detected block hfree⟩
  user_spec block huser := by
    rw [hcharted.user] at huser
    cases huser
  mapped_user block hmapped := by
    rw [hcharted.mapped] at hmapped
    cases hmapped
  managed_eq := hcharted.managed
  count_eq := by
    have hnone : (fun block ↦ bits.bitmap block && bits.usableBitmap block) = fun _ ↦ false := by
      funext block
      rw [hcharted.free, Bool.not_and_self]
    rw [hcharted.used, Pmm.countUsed_eq, hnone]
    simp [countUsable]

theorem low_le_of_pmmInitBits (hkernel : kernelStart < kernelEnd)
    (hbits : pmmInitBits info kernelStart kernelEnd = some bits) (block : ℕ)
    (husable : bits.usableBitmap block = true) : pmmLowBlocks ≤ block := by
  obtain ⟨hcharted, hiff⟩ := charted_pmmInitBits hkernel hbits
  have hblock := (hcharted.detected block husable).trans_le hcharted.detected_le
  exact low_le_of_mayBeUsed ((hiff block hblock).1 husable)

def pmmInit (info : BootInfo) (kernelStart kernelEnd : UInt32) : Option Pmm :=
  if hkernel : kernelStart < kernelEnd then
    match hbits : pmmInitBits info kernelStart kernelEnd with
    | none => none
    | some bits =>
      if bits.detectedBlocks = 0 ∨ bits.managedBlocks = 0 then none
      else some (pmmOfChart bits (charted_pmmInitBits hkernel hbits).1
        (low_le_of_pmmInitBits hkernel hbits))
  else none

theorem pmmInit_eq_some {pmm : Pmm} (hinit : pmmInit info kernelStart kernelEnd = some pmm) :
    Charted pmm.toPmmBits ∧ ∀ block < pmmMaxBlocks, pmm.usableBitmap block = true ↔
      MayBeUsed info kernelStart kernelEnd block := by
  unfold pmmInit at hinit
  split at hinit
  swap
  · cases hinit
  next hkernel =>
  split at hinit
  · cases hinit
  next bits hbits =>
  split at hinit
  · cases hinit
  · injection hinit with hinit
    rw [← hinit]
    exact charted_pmmInitBits hkernel hbits

/-- The free blocks after `pmm_init`, and that only the set of the entries matters. -/
theorem pmmInit_free_iff {pmm : Pmm} (hinit : pmmInit info kernelStart kernelEnd = some pmm) :
    (∀ block < pmmMaxBlocks, pmm.bitmap block = false ↔
      MayBeUsed info kernelStart kernelEnd block) ∧
    ∀ (other : BootInfo) (result : Pmm), (∀ entry, entry ∈ other.entries ↔ entry ∈ info.entries) →
      pmmInit other kernelStart kernelEnd = some result →
      ∀ block < pmmMaxBlocks, result.bitmap block = pmm.bitmap block := by
  have hfree : ∀ {info : BootInfo} {pmm : Pmm}, pmmInit info kernelStart kernelEnd = some pmm →
      ∀ block < pmmMaxBlocks, pmm.bitmap block = false ↔
        MayBeUsed info kernelStart kernelEnd block := by
    intro info pmm hinit block hblock
    obtain ⟨hcharted, hiff⟩ := pmmInit_eq_some hinit
    rw [← hiff block hblock, hcharted.free, Bool.not_eq_false']
  refine ⟨hfree hinit, fun other result hentries hother block hblock ↦ ?_⟩
  have hsame : MayBeUsed other kernelStart kernelEnd block ↔
      MayBeUsed info kernelStart kernelEnd block := by
    simp only [MayBeUsed, hentries]
  have heq := ((hfree hother block hblock).trans hsame).trans (hfree hinit block hblock).symm
  rw [← Bool.not_inj_iff, Bool.eq_iff_iff, Bool.not_eq_true', Bool.not_eq_true']
  exact heq

end Init

/-- A machine with 128 KiB around the fourth megabyte, of which the firmware keeps the last page. -/
def smallMachine : BootInfo where
  magic := bootInfoMagic
  bootDrive := 0x80
  memoryMapEntryCount := 2
  memoryMapEntrySize := 24
  vgaFontAddress := 0
  videoFlags := 0
  memoryMap index :=
    if index = 0 then ⟨0x003F0000, 0, 0x00020000, 0, bootMemoryAvailable, 1⟩
    else ⟨0x0040F000, 0, 0x00001000, 0, 2, 1⟩
  acpiRsdpAddress := 0

theorem detectedBlocks_foldl {mark : PmmBits → ℕ → PmmBits}
    (hmark : ∀ bits block, (mark bits block).detectedBlocks = bits.detectedBlocks)
    (blocks : List ℕ) (bits : PmmBits) :
    (blocks.foldl mark bits).detectedBlocks = bits.detectedBlocks := by
  induction blocks generalizing bits with
  | nil => rfl
  | cons block rest ih => rw [List.foldl_cons, ih, hmark]

/-- The bitmaps of the small machine. -/
def smallBits : PmmBits where
  bitmap block := !decide (0x3F0 ≤ block ∧ block < 0x40F)
  usableBitmap block := decide (0x3F0 ≤ block ∧ block < 0x40F)
  userBitmap _ := false
  userMappedBitmap _ := false
  detectedBlocks := 0x410
  managedBlocks := 31
  usedManagedBlocks := 0

theorem charted_smallBits : Charted smallBits where
  detected_le := by decide
  free _ := rfl
  detected block husable := by
    have hinside := of_decide_eq_true husable
    change block < 0x410
    omega
  user _ := rfl
  mapped _ := rfl
  managed := by
    have hfilter : (Finset.range pmmMaxBlocks).filter (fun block ↦ smallBits.usableBitmap block) =
        Finset.Ico 0x3F0 0x40F := by
      ext block
      simp only [Finset.mem_filter, Finset.mem_range, Finset.mem_Ico, smallBits,
        decide_eq_true_eq]
      exact ⟨And.right, fun hinside ↦ ⟨hinside.2.trans (by decide), hinside⟩⟩
    rw [countUsable, hfilter]
    rfl
  used := rfl

/-- The allocator of the small machine. -/
def smallPmm : Pmm := pmmOfChart smallBits charted_smallBits fun block husable ↦ by
  have hinside := of_decide_eq_true husable
  change 256 ≤ block
  omega

theorem pmmInitBits_smallMachine :
    pmmInitBits smallMachine 0x10000 0x80000 = some smallBits := by
  have hvalid : bootInfoIsValid smallMachine = true := by decide
  obtain ⟨bits, hbits⟩ : ∃ bits, pmmInitBits smallMachine 0x10000 0x80000 = some bits := by
    exact ⟨_, rfl⟩
  have hdetected : bits.detectedBlocks = 0x410 := by
    have hreserved : ∀ (bits : PmmBits) (block : ℕ),
        (bits.markBlockReserved block).detectedBlocks = bits.detectedBlocks := by
      intro bits block
      unfold PmmBits.markBlockReserved
      split_ifs <;> rfl
    have hfirst : (smallMachine.entries.filter fun entry ↦ entry.enabled && entry.available) =
      [smallMachine.memoryMap 0] := rfl
    have hsecond : (smallMachine.entries.filter fun entry ↦ entry.enabled && !entry.available) =
      [smallMachine.memoryMap 1] := rfl
    rw [pmmInitBits, e820ApplyMemoryMap, if_pos hvalid, Option.map_some, Option.some.injEq, hfirst,
      hsecond, List.foldl_cons, List.foldl_cons, List.foldl_nil, List.foldl_nil] at hbits
    rw [← hbits]
    iterate 3 rw [PmmBits.reserveRange, detectedBlocks_foldl hreserved]
    decide
  obtain ⟨hcharted, hiff⟩ := charted_pmmInitBits (by decide) hbits
  have hlow : ∀ block < 0x410, MayBeUsed smallMachine 0x10000 0x80000 block ↔
      0x3F0 ≤ block ∧ block < 0x40F := by decide +kernel
  have husable : bits.usableBitmap = smallBits.usableBitmap := by
    funext block
    rw [Bool.eq_iff_iff]
    change _ ↔ decide _ = true
    rw [decide_eq_true_eq]
    by_cases hblock : block < 0x410
    · rw [hiff block (hblock.trans (by decide)), hlow block hblock]
    · refine ⟨fun hset ↦ absurd (hdetected ▸ hcharted.detected block hset) hblock, fun h ↦ ?_⟩
      omega
  have hfree : bits.bitmap = smallBits.bitmap := by
    funext block
    rw [hcharted.free, husable]
    rfl
  have hmanaged : bits.managedBlocks = smallBits.managedBlocks := by
    rw [← UInt32.toNat_inj, hcharted.managed, charted_smallBits.managed, husable]
  exact hbits.trans (congrArg some (PmmBits.ext hfree husable (funext hcharted.user)
    (funext hcharted.mapped) hdetected hmanaged hcharted.used))

theorem pmmInit_smallMachine : pmmInit smallMachine 0x10000 0x80000 = some smallPmm := by
  unfold pmmInit
  rw [dif_pos (by decide)]
  split
  next hnone =>
    cases hnone
  next bits hbits =>
    rw [pmmInitBits_smallMachine] at hbits
    injection hbits with hbits
    subst hbits
    rfl

theorem pmmInit_free_iff_smallMachine :
    ∃ pmm, pmmInit smallMachine 0x10000 0x80000 = some pmm ∧ pmm.bitmap 0x40E = false ∧
      pmm.bitmap 0x40F = true := by
  obtain ⟨hfree, -⟩ := pmmInit_free_iff pmmInit_smallMachine
  refine ⟨smallPmm, pmmInit_smallMachine, (hfree 0x40E (by decide)).2 (by decide), ?_⟩
  decide

end EfesOS.Memory
