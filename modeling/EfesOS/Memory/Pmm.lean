import Mathlib.Tactic

/-!
# The physical memory manager

`src/memory/pmm.c` keeps four bits for every frame of physical memory: whether it is used, whether
the memory map lets it be used, whether it belongs to a user process, and whether a user page table
maps it. `Pmm` carries what these bits have in common from `pmm_init` on: a free frame is usable,
lies above the first megabyte and below the detected end; a frame of a process is used, and a mapped
one belongs to a process; the counters count the usable frames and the used ones among them.
`Pmm.take`, `Pmm.give`, `Pmm.setMapped` and `Pmm.reserve` are the only changes.

The lemmas named `_cases` say what each function of the allocator can do.
-/

set_option autoImplicit false

namespace EfesOS.Memory

abbrev pmmBlockSize : ℕ := 4096

abbrev pmmMaxBlocks : ℕ := 1048576

/-- `PMM_LOW_MEMORY_END / PMM_BLOCK_SIZE`. -/
abbrev pmmLowBlocks : ℕ := 256

/-- `PMM_USER_MIN_ADDRESS / PMM_BLOCK_SIZE`. -/
abbrev pmmUserMinBlock : ℕ := 1024

abbrev pmmUserMaxBlocks : ℕ := 65536

/-! ### Addresses and blocks -/

def blockOf (address : UInt32) : ℕ := address.toNat / pmmBlockSize

def blockAddress (block : ℕ) : UInt32 := UInt32.ofNat (block * pmmBlockSize)

def Aligned (address : UInt32) : Prop := address &&& 0xFFF = 0
  deriving Decidable

theorem aligned_iff {address : UInt32} : Aligned address ↔ address.toNat % pmmBlockSize = 0 := by
  have hmask : (address &&& 0xFFF).toNat = address.toNat % 2 ^ 12 := by
    exact Nat.and_two_pow_sub_one_eq_mod address.toNat 12
  rw [Aligned, ← UInt32.toNat_inj, hmask]
  rfl

variable {block : ℕ}

theorem toNat_blockAddress (hblock : block < pmmMaxBlocks) :
    (blockAddress block).toNat = block * pmmBlockSize := by
  have hsmall : block < 1048576 := hblock
  rw [blockAddress, UInt32.toNat_ofNat', Nat.mod_eq_of_lt]
  change block * 4096 < 2 ^ 32
  omega

theorem blockOf_blockAddress (hblock : block < pmmMaxBlocks) :
    blockOf (blockAddress block) = block := by
  rw [blockOf, toNat_blockAddress hblock]
  exact Nat.mul_div_cancel block (by decide)

theorem aligned_blockAddress (hblock : block < pmmMaxBlocks) :
    Aligned (blockAddress block) := by
  rw [aligned_iff, toNat_blockAddress hblock]
  exact Nat.mul_mod_left block pmmBlockSize

theorem blockOf_lt (address : UInt32) : blockOf address < pmmMaxBlocks := by
  have hbound := address.toNat_lt
  change address.toNat / 4096 < 1048576
  omega

theorem blockAddress_blockOf {address : UInt32} (haligned : Aligned address) :
    blockAddress (blockOf address) = address := by
  rw [aligned_iff] at haligned
  have hexact : address.toNat / pmmBlockSize * pmmBlockSize = address.toNat :=
    Nat.div_mul_cancel (Nat.dvd_of_mod_eq_zero haligned)
  rw [← UInt32.toNat_inj, toNat_blockAddress (blockOf_lt address), blockOf, hexact]

theorem blockOf_inj {first second : UInt32} (hfirst : Aligned first) (hsecond : Aligned second)
    (hblock : blockOf first = blockOf second) : first = second := by
  rw [← blockAddress_blockOf hfirst, hblock, blockAddress_blockOf hsecond]

/-! ### The bitmaps -/

/-- How many blocks are used of those the memory map lets be used. -/
def countUsed (bitmap usableBitmap : ℕ → Bool) : ℕ :=
  ((Finset.range pmmMaxBlocks).filter fun block ↦ bitmap block && usableBitmap block).card

/-- How many blocks the memory map lets be used. -/
def countUsable (usableBitmap : ℕ → Bool) : ℕ :=
  ((Finset.range pmmMaxBlocks).filter fun block ↦ usableBitmap block).card

/-- The static variables of `pmm.c`. -/
@[ext] structure PmmBits where
  bitmap : ℕ → Bool
  usableBitmap : ℕ → Bool
  userBitmap : ℕ → Bool
  userMappedBitmap : ℕ → Bool
  detectedBlocks : ℕ
  managedBlocks : UInt32
  usedManagedBlocks : UInt32

namespace PmmBits

def markBlockAvailable (bits : PmmBits) (block : ℕ) : PmmBits :=
  if pmmMaxBlocks ≤ block ∨ bits.usableBitmap block = true then bits
  else
    { bits with
      usableBitmap := Function.update bits.usableBitmap block true
      managedBlocks := bits.managedBlocks + 1
      bitmap := Function.update bits.bitmap block false }

def markBlockReserved (bits : PmmBits) (block : ℕ) : PmmBits :=
  if pmmMaxBlocks ≤ block then bits
  else
    let unmanaged :=
      if bits.usableBitmap block then
        { bits with
          usableBitmap := Function.update bits.usableBitmap block false
          managedBlocks := bits.managedBlocks - 1
          usedManagedBlocks :=
            if bits.bitmap block then bits.usedManagedBlocks - 1 else bits.usedManagedBlocks }
      else bits
    { unmanaged with bitmap := Function.update bits.bitmap block true }

end PmmBits

/-- The static variables from `pmm_init` on. -/
structure Pmm extends PmmBits where
  detected_le : detectedBlocks ≤ pmmMaxBlocks
  free_spec : ∀ block, bitmap block = false →
    usableBitmap block = true ∧ pmmLowBlocks ≤ block ∧ block < detectedBlocks
  user_spec : ∀ block, userBitmap block = true → bitmap block = true ∧
    pmmLowBlocks ≤ block ∧ block < detectedBlocks ∧ block < pmmUserMaxBlocks
  mapped_user : ∀ block, userMappedBitmap block = true → userBitmap block = true
  managed_eq : managedBlocks.toNat = countUsable usableBitmap
  count_eq : usedManagedBlocks.toNat = countUsed bitmap usableBitmap

namespace Pmm

variable {pmm : Pmm} {block : ℕ}

theorem lt_max_of_free (hfree : pmm.bitmap block = false) : block < pmmMaxBlocks :=
  (pmm.free_spec block hfree).2.2.trans_le pmm.detected_le

variable {bitmap usableBitmap : ℕ → Bool}

/-- Marking a free block used counts it. -/
theorem countUsed_take (hfree : bitmap block = false) (husable : usableBitmap block = true)
    (hblock : block < pmmMaxBlocks) :
    countUsed (Function.update bitmap block true) usableBitmap =
      countUsed bitmap usableBitmap + 1 := by
  have hinsert : ((Finset.range pmmMaxBlocks).filter fun other ↦
      Function.update bitmap block true other && usableBitmap other) =
      insert block ((Finset.range pmmMaxBlocks).filter fun other ↦
        bitmap other && usableBitmap other) := by
    ext other
    by_cases heq : other = block
    · simp [heq, husable, hblock]
    · simp [heq]
  rw [countUsed, hinsert, Finset.card_insert_of_notMem, countUsed]
  simp [hfree]

/-- Marking a used block free uncounts it. -/
theorem countUsed_give (hused : bitmap block = true) (husable : usableBitmap block = true)
    (hblock : block < pmmMaxBlocks) :
    countUsed (Function.update bitmap block false) usableBitmap + 1 =
      countUsed bitmap usableBitmap := by
  have hfree : Function.update bitmap block false block = false :=
    Function.update_self block false bitmap
  have hback := countUsed_take hfree husable hblock
  rw [← hback, Function.update_idem, ← hused, Function.update_eq_self]

theorem countUsed_le (bitmap usableBitmap : ℕ → Bool) :
    countUsed bitmap usableBitmap ≤ pmmMaxBlocks := by
  exact (Finset.card_filter_le _ _).trans_eq (Finset.card_range _)

theorem toNat_sub_one {counter : UInt32} {count : ℕ} (hcount : count + 1 = counter.toNat) :
    (counter - 1).toNat = count := by
  have hone : (1 : UInt32) ≤ counter := by
    rw [UInt32.le_iff_toNat_le, ← hcount]
    exact Nat.le_add_left 1 _
  rw [UInt32.toNat_sub_of_le _ _ hone, ← hcount]
  exact Nat.add_sub_cancel _ 1

/-- A block that `pmm_free_block` gives back. -/
def Releasable (pmm : Pmm) (block : ℕ) : Prop :=
  pmm.bitmap block = true ∧ pmm.usableBitmap block = true ∧ pmmLowBlocks ≤ block ∧
    block < pmm.detectedBlocks ∧ pmm.userMappedBitmap block = false
  deriving Decidable

/-- A free block becomes used, by a process or by the kernel. -/
def take (pmm : Pmm) (block : ℕ) (owned : Bool) (hfree : pmm.bitmap block = false)
    (howned : owned = true → block < pmmUserMaxBlocks) : Pmm :=
  { pmm with
    bitmap := Function.update pmm.bitmap block true
    userBitmap := Function.update pmm.userBitmap block owned
    usedManagedBlocks := pmm.usedManagedBlocks + 1
    free_spec := by
      intro other hother
      rw [Function.update_apply] at hother
      split_ifs at hother
      exact pmm.free_spec other hother
    user_spec := by
      intro other hother
      rw [Function.update_apply] at hother ⊢
      split_ifs at hother ⊢ with heq
      · obtain ⟨-, hlow, hdetected⟩ := pmm.free_spec block hfree
        exact heq ▸ ⟨rfl, hlow, hdetected, howned hother⟩
      · exact pmm.user_spec other hother
    mapped_user := by
      intro other hother
      have huser := pmm.mapped_user other hother
      rw [Function.update_apply]
      split_ifs with heq
      · rw [heq] at huser
        cases hfree.symm.trans (pmm.user_spec block huser).1
      · exact huser
    count_eq := by
      have hblock := lt_max_of_free hfree
      have hbound := countUsed_le (Function.update pmm.bitmap block true) pmm.usableBitmap
      rw [countUsed_take hfree (pmm.free_spec block hfree).1 hblock] at hbound ⊢
      rw [UInt32.toNat_add, pmm.count_eq, Nat.mod_eq_of_lt]
      · rfl
      · exact hbound.trans_lt (by decide) }

/-- A used block becomes free. -/
def give (pmm : Pmm) (block : ℕ) (hrelease : pmm.Releasable block) : Pmm :=
  { pmm with
    bitmap := Function.update pmm.bitmap block false
    userBitmap := Function.update pmm.userBitmap block false
    usedManagedBlocks := pmm.usedManagedBlocks - 1
    free_spec := by
      intro other hother
      rw [Function.update_apply] at hother
      split_ifs at hother with heq
      · exact heq ▸ ⟨hrelease.2.1, hrelease.2.2.1, hrelease.2.2.2.1⟩
      · exact pmm.free_spec other hother
    user_spec := by
      intro other hother
      rw [Function.update_apply] at hother ⊢
      split_ifs at hother ⊢
      exact pmm.user_spec other hother
    mapped_user := by
      intro other hother
      rw [Function.update_apply]
      split_ifs with heq
      · rw [heq, hrelease.2.2.2.2] at hother
        cases hother
      · exact pmm.mapped_user other hother
    count_eq := by
      have hblock := hrelease.2.2.2.1.trans_le pmm.detected_le
      have hcount := countUsed_give hrelease.1 hrelease.2.1 hblock
      exact toNat_sub_one (hcount.trans pmm.count_eq.symm) }

/-- The mark of a block that a user page table maps. -/
def setMapped (pmm : Pmm) (block : ℕ) (mapped : Bool)
    (huser : mapped = true → pmm.userBitmap block = true) : Pmm :=
  { pmm with
    userMappedBitmap := Function.update pmm.userMappedBitmap block mapped
    mapped_user := by
      intro other hother
      rw [Function.update_apply] at hother
      split_ifs at hother with heq
      · exact heq ▸ huser hother
      · exact pmm.mapped_user other hother }

/-- A block that is no longer managed is not counted. -/
theorem countUsable_remove (husable : usableBitmap block = true) (hblock : block < pmmMaxBlocks) :
    countUsable (Function.update usableBitmap block false) + 1 = countUsable usableBitmap := by
  have herase : ((Finset.range pmmMaxBlocks).filter fun other ↦
      Function.update usableBitmap block false other) =
      ((Finset.range pmmMaxBlocks).filter fun other ↦ usableBitmap other).erase block := by
    ext other
    by_cases heq : other = block
    · simp [heq]
    · simp [heq]
  rw [countUsable, herase, Finset.card_erase_add_one, countUsable]
  simp [husable, hblock]

theorem countUsed_eq (bitmap usableBitmap : ℕ → Bool) :
    countUsed bitmap usableBitmap = countUsable fun block ↦
      bitmap block && usableBitmap block := rfl

theorem countUsed_reserve :
    countUsed (Function.update bitmap block true) (Function.update usableBitmap block false) =
      countUsable
        (Function.update (fun other ↦ bitmap other && usableBitmap other) block false) := by
  rw [countUsed_eq]
  congr 1
  funext other
  by_cases heq : other = block <;> simp [heq]

section Reserve

variable (pmm : Pmm)

@[simp] theorem userBitmap_markBlockReserved :
    (pmm.toPmmBits.markBlockReserved block).userBitmap = pmm.userBitmap := by
  unfold PmmBits.markBlockReserved
  split_ifs <;> rfl

@[simp] theorem userMappedBitmap_markBlockReserved :
    (pmm.toPmmBits.markBlockReserved block).userMappedBitmap = pmm.userMappedBitmap := by
  unfold PmmBits.markBlockReserved
  split_ifs <;> rfl

@[simp] theorem detectedBlocks_markBlockReserved :
    (pmm.toPmmBits.markBlockReserved block).detectedBlocks = pmm.detectedBlocks := by
  unfold PmmBits.markBlockReserved
  split_ifs <;> rfl

section

variable (hblock : block < pmmMaxBlocks)
include hblock

theorem bitmap_markBlockReserved :
    (pmm.toPmmBits.markBlockReserved block).bitmap = Function.update pmm.bitmap block true := by
  unfold PmmBits.markBlockReserved
  rw [if_neg (not_le.2 hblock)]

theorem usableBitmap_markBlockReserved :
    (pmm.toPmmBits.markBlockReserved block).usableBitmap =
      Function.update pmm.usableBitmap block false := by
  unfold PmmBits.markBlockReserved
  rw [if_neg (not_le.2 hblock)]
  cases husable : pmm.usableBitmap block with
  | true => rfl
  | false =>
    simp [husable]

theorem managed_markBlockReserved :
    (pmm.toPmmBits.markBlockReserved block).managedBlocks.toNat =
      countUsable (pmm.toPmmBits.markBlockReserved block).usableBitmap := by
  rw [pmm.usableBitmap_markBlockReserved hblock]
  unfold PmmBits.markBlockReserved
  rw [if_neg (not_le.2 hblock)]
  cases husable : pmm.usableBitmap block with
  | true =>
    refine toNat_sub_one ?_
    rw [countUsable_remove husable hblock, pmm.managed_eq]
  | false =>
    rw [← husable, Function.update_eq_self]
    simp [husable, pmm.managed_eq]

theorem count_markBlockReserved :
    (pmm.toPmmBits.markBlockReserved block).usedManagedBlocks.toNat =
      countUsed (pmm.toPmmBits.markBlockReserved block).bitmap
        (pmm.toPmmBits.markBlockReserved block).usableBitmap := by
  rw [pmm.usableBitmap_markBlockReserved hblock, pmm.bitmap_markBlockReserved hblock,
    countUsed_reserve]
  unfold PmmBits.markBlockReserved
  rw [if_neg (not_le.2 hblock)]
  by_cases hcounted : (pmm.bitmap block && pmm.usableBitmap block) = true
  · obtain ⟨hused, husable⟩ := Bool.and_eq_true_iff.1 hcounted
    simp only [husable, hused, if_true]
    refine toNat_sub_one ?_
    rw [pmm.count_eq, countUsed_eq]
    exact countUsable_remove hcounted hblock
  · rw [Bool.not_eq_true] at hcounted
    rw [← hcounted, Function.update_eq_self (f := fun other ↦
      pmm.bitmap other && pmm.usableBitmap other), ← countUsed_eq, ← pmm.count_eq]
    cases husable : pmm.usableBitmap block with
    | false => simp
    | true =>
      have hfree : pmm.bitmap block = false := by simpa [husable] using hcounted
      simp [hfree]

end

/-- A block that the memory map no longer lets be used. -/
def reserve (block : ℕ) : Pmm :=
  if hblock : block < pmmMaxBlocks then
    { toPmmBits := pmm.toPmmBits.markBlockReserved block
      detected_le := by
        rw [detectedBlocks_markBlockReserved]
        exact pmm.detected_le
      free_spec := by
        intro other hother
        rw [pmm.bitmap_markBlockReserved hblock, Function.update_apply] at hother
        rw [pmm.usableBitmap_markBlockReserved hblock, detectedBlocks_markBlockReserved]
        split_ifs at hother with heq
        rw [Function.update_of_ne heq]
        exact pmm.free_spec other hother
      user_spec := by
        intro other hother
        rw [userBitmap_markBlockReserved] at hother
        rw [pmm.bitmap_markBlockReserved hblock, detectedBlocks_markBlockReserved,
          Function.update_apply]
        obtain ⟨hused, hrest⟩ := pmm.user_spec other hother
        refine ⟨?_, hrest⟩
        split_ifs
        · rfl
        · exact hused
      mapped_user := by
        simp only [userBitmap_markBlockReserved, userMappedBitmap_markBlockReserved]
        exact pmm.mapped_user
      managed_eq := pmm.managed_markBlockReserved hblock
      count_eq := pmm.count_markBlockReserved hblock }
  else pmm

end Reserve

end Pmm

/-! ### The functions -/

/-- The blocks from one number to another, in order. -/
def blocksBetween (first last : ℕ) : List ℕ := List.range' first (last - first)

def pmmAllocBlockBelow (limit : UInt32) (pmm : Pmm) : UInt32 × Pmm :=
  let endBlock := min (limit.toNat / pmmBlockSize) pmm.detectedBlocks
  match hfound : (blocksBetween pmmLowBlocks endBlock).find? fun block ↦ !pmm.bitmap block with
  | none => (0, pmm)
  | some block =>
    (blockAddress block, pmm.take block false (by simpa using List.find?_some hfound) nofun)

theorem lt_of_mem_blocksBetween {first last : ℕ} (hmem : block ∈ blocksBetween first last) :
    first ≤ block ∧ block < last := by
  rw [blocksBetween, List.mem_range'_1] at hmem
  omega

def pmmAllocUserBlock (pmm : Pmm) : UInt32 × Pmm :=
  match hfound : (blocksBetween pmmUserMinBlock (min pmm.detectedBlocks pmmUserMaxBlocks)).find?
      fun block ↦ !pmm.bitmap block && pmm.usableBitmap block with
  | none => (0, pmm)
  | some block =>
    (blockAddress block, pmm.take block true
      (by
        have htest := List.find?_some hfound
        simp only [Bool.and_eq_true, Bool.not_eq_true'] at htest
        exact htest.1)
      fun _ ↦ (lt_of_mem_blocksBetween (List.mem_of_find?_eq_some hfound)).2.trans_le
        (min_le_right _ _))

def pmmBlockIsUserOwned (address : UInt32) (pmm : Pmm) : Bool :=
  decide (Aligned address) && decide (blockOf address < pmm.detectedBlocks) &&
    decide (blockOf address < pmmUserMaxBlocks) && pmm.usableBitmap (blockOf address) &&
    pmm.bitmap (blockOf address) && pmm.userBitmap (blockOf address)

/-- `user_mapped`. -/
def Pmm.userMapped (pmm : Pmm) (block : ℕ) : Bool :=
  decide (block < pmmUserMaxBlocks) && pmm.userMappedBitmap block

theorem userBitmap_of_pmmBlockIsUserOwned {address : UInt32} {pmm : Pmm}
    (howned : pmmBlockIsUserOwned address pmm = true) :
    pmm.userBitmap (blockOf address) = true := by
  simp only [pmmBlockIsUserOwned, Bool.and_eq_true] at howned
  exact howned.2

def pmmClaimUserBlock (address : UInt32) (pmm : Pmm) : Bool × Pmm :=
  if howned : pmmBlockIsUserOwned address pmm = true then
    if pmm.userMapped (blockOf address) then (false, pmm)
    else (true, pmm.setMapped (blockOf address) true
      fun _ ↦ userBitmap_of_pmmBlockIsUserOwned howned)
  else (false, pmm)

def pmmReleaseUserBlock (address : UInt32) (pmm : Pmm) : Pmm :=
  if Aligned address ∧ blockOf address < pmmUserMaxBlocks then
    pmm.setMapped (blockOf address) false nofun
  else pmm

def pmmUserBlockIsMapped (address : UInt32) (pmm : Pmm) : Bool :=
  pmmBlockIsUserOwned address pmm && pmm.userMapped (blockOf address)

def pmmAllocBlock (pmm : Pmm) : UInt32 × Pmm := pmmAllocBlockBelow 0xFFFFFFFF pmm

def pmmFreeBlock (address : UInt32) (pmm : Pmm) : Pmm :=
  if hrelease : Aligned address ∧ pmm.Releasable (blockOf address) then
    pmm.give (blockOf address) hrelease.2
  else pmm

def clampBlockIndex (value : ℕ) : ℕ := min value pmmMaxBlocks

/-- The blocks that `pmm_reserve_range` goes through. -/
def blocksOfRange (address length : UInt32) : List ℕ :=
  if length = 0 then []
  else blocksBetween (blockOf address)
    (clampBlockIndex ((address.toNat + length.toNat + pmmBlockSize - 1) / pmmBlockSize))

def pmmReserveRange (address length : UInt32) (pmm : Pmm) : Pmm :=
  (blocksOfRange address length).foldl Pmm.reserve pmm

def pmmTotalBlocks (pmm : Pmm) : UInt32 := pmm.managedBlocks

def pmmFreeBlocks (pmm : Pmm) : UInt32 := pmm.managedBlocks - pmm.usedManagedBlocks

/-! ### What the functions do to frames -/

namespace Pmm

variable {pmm other : Pmm} {address frame : UInt32} {block : ℕ}

/-- A frame the allocator manages and has handed out. -/
def Held (pmm : Pmm) (frame : UInt32) : Prop :=
  Aligned frame ∧ pmm.bitmap (blockOf frame) = true ∧ pmm.usableBitmap (blockOf frame) = true ∧
    pmmLowBlocks ≤ blockOf frame ∧ blockOf frame < pmm.detectedBlocks
  deriving Decidable

/-- A frame that belongs to a process. -/
def Owned (pmm : Pmm) (frame : UInt32) : Prop :=
  Aligned frame ∧ pmm.userBitmap (blockOf frame) = true ∧ pmm.usableBitmap (blockOf frame) = true
  deriving Decidable

/-- A frame that a user page table maps. -/
def Mapped (pmm : Pmm) (frame : UInt32) : Prop :=
  Aligned frame ∧ pmm.userMappedBitmap (blockOf frame) = true ∧
    pmm.usableBitmap (blockOf frame) = true
  deriving Decidable

/-- The two manage the same frames, and say the same of those they do not manage. -/
structure SameMap (pmm other : Pmm) : Prop where
  usable : other.usableBitmap = pmm.usableBitmap
  detected : other.detectedBlocks = pmm.detectedBlocks
  reserved : ∀ block, pmm.usableBitmap block = false →
    other.userBitmap block = pmm.userBitmap block ∧
      other.userMappedBitmap block = pmm.userMappedBitmap block

theorem SameMap.refl (pmm : Pmm) : SameMap pmm pmm := ⟨rfl, rfl, fun _ _ ↦ ⟨rfl, rfl⟩⟩

theorem SameMap.trans {third : Pmm} (hfirst : SameMap pmm other) (hsecond : SameMap other third) :
    SameMap pmm third where
  usable := hsecond.usable.trans hfirst.usable
  detected := hsecond.detected.trans hfirst.detected
  reserved block hblock := by
    obtain ⟨huser, hmapped⟩ := hfirst.reserved block hblock
    obtain ⟨huserThird, hmappedThird⟩ :=
      hsecond.reserved block (by rw [hfirst.usable]; exact hblock)
    exact ⟨huserThird.trans huser, hmappedThird.trans hmapped⟩

theorem Owned.held (howned : pmm.Owned frame) : pmm.Held frame := by
  obtain ⟨hused, hlow, hdetected, -⟩ := pmm.user_spec _ howned.2.1
  exact ⟨howned.1, hused, howned.2.2, hlow, hdetected⟩

theorem Mapped.owned (hmapped : pmm.Mapped frame) : pmm.Owned frame :=
  ⟨hmapped.1, pmm.mapped_user _ hmapped.2.1, hmapped.2.2⟩

theorem Held.ne_zero (hheld : pmm.Held frame) : frame ≠ 0 := by
  rintro rfl
  exact absurd hheld.2.2.2.1 (by decide)

theorem releasable_iff (haligned : Aligned frame) :
    pmm.Releasable (blockOf frame) ↔ pmm.Held frame ∧ ¬pmm.Mapped frame := by
  unfold Releasable Held Mapped
  simp only [haligned, true_and, not_and, Bool.not_eq_true, and_assoc]
  constructor
  · rintro ⟨hused, husable, hlow, hdetected, hmapped⟩
    exact ⟨hused, husable, hlow, hdetected, by simp [hmapped]⟩
  · rintro ⟨hused, husable, hlow, hdetected, hmapped⟩
    refine ⟨hused, husable, hlow, hdetected, Bool.eq_false_iff.2 fun h ↦ ?_⟩
    rw [hmapped h] at husable
    cases husable

private theorem not_managed {block : ℕ} (hblock : pmmMaxBlocks ≤ block) :
    pmm.bitmap block = true ∧ pmm.userBitmap block = false ∧
      pmm.userMappedBitmap block = false := by
  have hdetected := pmm.detected_le.trans hblock
  have huser : pmm.userBitmap block = false := by
    by_contra h
    have := (pmm.user_spec block (by simpa using h)).2.2.1
    omega
  refine ⟨?_, huser, ?_⟩
  · by_contra h
    have := (pmm.free_spec block (by simpa using h)).2.2
    omega
  · by_contra h
    rw [pmm.mapped_user block (by simpa using h)] at huser
    cases huser

/-- The frames handed out and their marks are all there is to an allocator. -/
theorem eq_of_frames (hmap : SameMap pmm other) (hheld : ∀ frame, other.Held frame ↔ pmm.Held frame)
    (howned : ∀ frame, other.Owned frame ↔ pmm.Owned frame)
    (hmapped : ∀ frame, other.Mapped frame ↔ pmm.Mapped frame) : other = pmm := by
  have hbits : ∀ block, other.bitmap block = pmm.bitmap block ∧
      other.userBitmap block = pmm.userBitmap block ∧
      other.userMappedBitmap block = pmm.userMappedBitmap block := by
    intro block
    by_cases hblock : block < pmmMaxBlocks
    swap
    · obtain ⟨hused, huser, hmap⟩ := pmm.not_managed (not_lt.1 hblock)
      obtain ⟨hused', huser', hmap'⟩ := other.not_managed (not_lt.1 hblock)
      exact ⟨hused'.trans hused.symm, huser'.trans huser.symm, hmap'.trans hmap.symm⟩
    have haligned := aligned_blockAddress hblock
    have hof := blockOf_blockAddress hblock
    have hheld := hheld (blockAddress block)
    have howned := howned (blockAddress block)
    have hmapped := hmapped (blockAddress block)
    simp only [Held, Owned, Mapped, haligned, hof, true_and, hmap.usable, hmap.detected]
      at hheld howned hmapped
    have hmarks : other.userBitmap block = pmm.userBitmap block ∧
        other.userMappedBitmap block = pmm.userMappedBitmap block := by
      cases husable : pmm.usableBitmap block with
      | false => exact hmap.reserved block husable
      | true =>
        simp only [husable, and_true] at howned hmapped
        exact ⟨Bool.eq_iff_iff.2 howned, Bool.eq_iff_iff.2 hmapped⟩
    refine ⟨?_, hmarks⟩
    by_cases hmanaged : pmm.usableBitmap block = true ∧ pmmLowBlocks ≤ block ∧
        block < pmm.detectedBlocks
    · simp only [hmanaged, and_true] at hheld
      exact Bool.eq_iff_iff.2 hheld
    · have hpmm : pmm.bitmap block = true := by
        by_contra h
        exact hmanaged (pmm.free_spec block (by simpa using h))
      have hother : other.bitmap block = true := by
        by_contra h
        have hspec := other.free_spec block (by simpa using h)
        rw [hmap.usable, hmap.detected] at hspec
        exact hmanaged hspec
      rw [hpmm, hother]
  have hbitmap : other.bitmap = pmm.bitmap := funext fun block ↦ (hbits block).1
  have hsame : other.toPmmBits = pmm.toPmmBits := by
    refine PmmBits.ext hbitmap hmap.usable (funext fun block ↦ (hbits block).2.1)
      (funext fun block ↦ (hbits block).2.2) hmap.detected ?_ ?_ <;> rw [← UInt32.toNat_inj]
    · rw [other.managed_eq, pmm.managed_eq, hmap.usable]
    · rw [other.count_eq, pmm.count_eq, hbitmap, hmap.usable]
  rcases other with ⟨⟩
  rcases pmm with ⟨⟩
  subst hsame
  rfl

/-- A frame that was free is handed out. -/
structure Takes (pmm : Pmm) (frame : UInt32) (owned : Bool) (other : Pmm) : Prop where
  aligned : Aligned frame
  nonzero : frame ≠ 0
  free : ¬pmm.Held frame
  map : SameMap pmm other
  held : ∀ x, other.Held x ↔ pmm.Held x ∨ x = frame
  owned : ∀ x, other.Owned x ↔ pmm.Owned x ∨ x = frame ∧ owned = true
  mapped : ∀ x, other.Mapped x ↔ pmm.Mapped x

/-- A frame that was handed out is free again. -/
structure Gives (pmm : Pmm) (frame : UInt32) (other : Pmm) : Prop where
  map : SameMap pmm other
  held : ∀ x, other.Held x ↔ pmm.Held x ∧ x ≠ frame
  owned : ∀ x, other.Owned x ↔ pmm.Owned x ∧ x ≠ frame
  mapped : ∀ x, other.Mapped x ↔ pmm.Mapped x

/-- Only the mark of one mapped frame changes. -/
structure Marks (pmm : Pmm) (frame : UInt32) (mapped : Bool) (other : Pmm) : Prop where
  map : SameMap pmm other
  held : ∀ x, other.Held x ↔ pmm.Held x
  owned : ∀ x, other.Owned x ↔ pmm.Owned x
  mapped : ∀ x, other.Mapped x ↔ x = frame ∧ mapped = true ∨ x ≠ frame ∧ pmm.Mapped x

theorem blockOf_eq_iff {block : ℕ} (haligned : Aligned frame) (hblock : block < pmmMaxBlocks) :
    blockOf frame = block ↔ frame = blockAddress block := by
  constructor
  · intro h
    rw [← h, blockAddress_blockOf haligned]
  · intro h
    rw [h, blockOf_blockAddress hblock]

theorem takes_take (owned : Bool) (hfree : pmm.bitmap block = false)
    (howned : owned = true → block < pmmUserMaxBlocks) :
    Takes pmm (blockAddress block) owned (pmm.take block owned hfree howned) := by
  have hblock := lt_max_of_free hfree
  have hof := blockOf_blockAddress hblock
  obtain ⟨husable, hlow, hdetected⟩ := pmm.free_spec block hfree
  have huser : pmm.userBitmap block = false := by
    by_contra h
    rw [(pmm.user_spec block (by simpa using h)).1] at hfree
    cases hfree
  have hmap : SameMap pmm (pmm.take block owned hfree howned) := by
    refine ⟨rfl, rfl, fun other hother ↦ ⟨Function.update_of_ne ?_ _ _, rfl⟩⟩
    rintro rfl
    rw [husable] at hother
    cases hother
  refine ⟨aligned_blockAddress hblock, ?_, ?_, hmap, ?_, ?_, fun x ↦ Iff.rfl⟩
  · intro hzero
    rw [hzero] at hof
    have : block = 0 := hof.symm
    exact absurd hlow (by rw [this]; decide)
  · intro hheld
    have hused := hheld.2.1
    rw [hof, hfree] at hused
    cases hused
  all_goals
    intro x
    by_cases heq : x = blockAddress block
    · simp [Held, Owned, take, heq, husable, hlow, hdetected, huser, hof,
        aligned_blockAddress hblock]
    by_cases haligned : Aligned x
    · have hne : blockOf x ≠ block := mt (blockOf_eq_iff haligned hblock).1 heq
      simp [Held, Owned, take, haligned, heq, hne]
    · simp [Held, Owned, haligned, heq]

theorem gives_give (haligned : Aligned frame) (hrelease : pmm.Releasable (blockOf frame)) :
    Gives pmm frame (pmm.give (blockOf frame) hrelease) := by
  have hinj : ∀ {x}, Aligned x → (blockOf x = blockOf frame ↔ x = frame) :=
    fun hx ↦ ⟨blockOf_inj hx haligned, fun h ↦ h ▸ rfl⟩
  have hmap : SameMap pmm (pmm.give (blockOf frame) hrelease) := by
    refine ⟨rfl, rfl, fun other hother ↦ ⟨Function.update_of_ne ?_ _ _, rfl⟩⟩
    rintro rfl
    rw [hrelease.2.1] at hother
    cases hother
  refine ⟨hmap, fun x ↦ ?_, fun x ↦ ?_, fun x ↦ Iff.rfl⟩
  · unfold Held
    by_cases hx : Aligned x
    · by_cases heq : x = frame
      · simp [give, heq]
      · simp [give, hx, heq, hinj hx]
    · simp [hx]
  · unfold Owned
    by_cases hx : Aligned x
    · by_cases heq : x = frame
      · simp [give, heq]
      · simp [give, hx, heq, hinj hx]
    · simp [hx]

theorem marks_setMapped (mapped : Bool) (haligned : Aligned frame)
    (husable : pmm.usableBitmap (blockOf frame) = true)
    (huser : mapped = true → pmm.userBitmap (blockOf frame) = true) :
    Marks pmm frame mapped (pmm.setMapped (blockOf frame) mapped huser) := by
  have hinj : ∀ {x}, Aligned x → (blockOf x = blockOf frame ↔ x = frame) :=
    fun hx ↦ ⟨blockOf_inj hx haligned, fun h ↦ h ▸ rfl⟩
  have hmap : SameMap pmm (pmm.setMapped (blockOf frame) mapped huser) := by
    refine ⟨rfl, rfl, fun other hother ↦ ⟨rfl, Function.update_of_ne ?_ _ _⟩⟩
    rintro rfl
    rw [husable] at hother
    cases hother
  refine ⟨hmap, fun x ↦ Iff.rfl, fun x ↦ Iff.rfl, fun x ↦ ?_⟩
  unfold Mapped
  by_cases hx : Aligned x
  · by_cases heq : x = frame
    · simp [setMapped, heq, haligned, husable]
    · simp [setMapped, hx, heq, hinj hx]
  · have hne : x ≠ frame := fun h ↦ hx (h ▸ haligned)
    simp [hx, hne]

end Pmm

variable {pmm : Pmm} {address limit : UInt32}

theorem pmmAllocBlockBelow_cases (limit : UInt32) (pmm : Pmm) :
    pmmAllocBlockBelow limit pmm = (0, pmm) ∨
      ∃ frame other, pmmAllocBlockBelow limit pmm = (frame, other) ∧
        pmm.Takes frame false other ∧ frame < limit := by
  unfold pmmAllocBlockBelow
  dsimp only
  split
  · exact .inl rfl
  · next block hfound =>
    refine .inr ⟨_, _, rfl, Pmm.takes_take false _ _, ?_⟩
    obtain ⟨-, hlimit⟩ := lt_of_mem_blocksBetween (List.mem_of_find?_eq_some hfound)
    have hblock : block < limit.toNat / 4096 := hlimit.trans_le (min_le_left _ _)
    have hmax : block < pmmMaxBlocks :=
      (hlimit.trans_le (min_le_right _ _)).trans_le pmm.detected_le
    rw [UInt32.lt_iff_toNat_lt, toNat_blockAddress hmax]
    change block * 4096 < limit.toNat
    omega

theorem pmmAllocUserBlock_cases (pmm : Pmm) :
    pmmAllocUserBlock pmm = (0, pmm) ∨
      ∃ frame other, pmmAllocUserBlock pmm = (frame, other) ∧ pmm.Takes frame true other := by
  unfold pmmAllocUserBlock
  split
  · exact .inl rfl
  · exact .inr ⟨_, _, rfl, Pmm.takes_take true _ _⟩

theorem pmmBlockIsUserOwned_iff : pmmBlockIsUserOwned address pmm = true ↔ pmm.Owned address := by
  simp only [pmmBlockIsUserOwned, Bool.and_eq_true, decide_eq_true_eq]
  constructor
  · rintro ⟨⟨⟨⟨⟨haligned, -⟩, -⟩, husable⟩, -⟩, huser⟩
    exact ⟨haligned, huser, husable⟩
  · rintro ⟨haligned, huser, husable⟩
    obtain ⟨hused, -, hdetected, hmax⟩ := pmm.user_spec _ huser
    exact ⟨⟨⟨⟨⟨haligned, hdetected⟩, hmax⟩, husable⟩, hused⟩, huser⟩

theorem userMapped_eq (pmm : Pmm) (block : ℕ) :
    pmm.userMapped block = pmm.userMappedBitmap block := by
  unfold Pmm.userMapped
  cases hmapped : pmm.userMappedBitmap block with
  | false => exact Bool.and_false _
  | true =>
    have hmax := (pmm.user_spec block (pmm.mapped_user block hmapped)).2.2.2
    rw [Bool.and_true, decide_eq_true hmax]

theorem pmmUserBlockIsMapped_iff : pmmUserBlockIsMapped address pmm = true ↔
    pmm.Mapped address := by
  rw [pmmUserBlockIsMapped, Bool.and_eq_true, pmmBlockIsUserOwned_iff, userMapped_eq]
  exact ⟨fun h ↦ ⟨h.1.1, h.2, h.1.2.2⟩, fun h ↦ ⟨h.owned, h.2.1⟩⟩

theorem pmmClaimUserBlock_cases (address : UInt32) (pmm : Pmm) :
    pmmClaimUserBlock address pmm = (false, pmm) ∨
      ∃ other, pmmClaimUserBlock address pmm = (true, other) ∧ pmm.Owned address ∧
        ¬pmm.Mapped address ∧ pmm.Marks address true other := by
  unfold pmmClaimUserBlock
  by_cases howned : pmmBlockIsUserOwned address pmm = true
  · rw [dif_pos howned, userMapped_eq]
    cases hmapped : pmm.userMappedBitmap (blockOf address) with
    | true => exact .inl rfl
    | false =>
      have hpost := pmmBlockIsUserOwned_iff.1 howned
      refine .inr ⟨_, rfl, hpost, ?_, Pmm.marks_setMapped true hpost.1 hpost.2.2 _⟩
      rintro ⟨-, h, -⟩
      rw [hmapped] at h
      cases h
  · rw [dif_neg howned]
    exact .inl rfl

theorem pmmClaimUserBlock_of_not_mapped (howned : pmm.Owned address)
    (hmapped : ¬pmm.Mapped address) :
    (pmmClaimUserBlock address pmm).1 = true := by
  have hbit : pmm.userMappedBitmap (blockOf address) = false := by
    by_contra h
    exact hmapped ⟨howned.1, by simpa using h, howned.2.2⟩
  simp [pmmClaimUserBlock, dif_pos (pmmBlockIsUserOwned_iff.2 howned), userMapped_eq, hbit]

theorem pmmReleaseUserBlock_marks (hmapped : pmm.Mapped address) :
    pmm.Marks address false (pmmReleaseUserBlock address pmm) := by
  have hmax := (pmm.user_spec _ hmapped.owned.2.1).2.2.2
  rw [pmmReleaseUserBlock, if_pos ⟨hmapped.1, hmax⟩]
  exact Pmm.marks_setMapped false hmapped.1 hmapped.2.2 _

theorem pmmFreeBlock_gives (hheld : pmm.Held address) (hmapped : ¬pmm.Mapped address) :
    pmm.Gives address (pmmFreeBlock address pmm) := by
  have hrelease := (Pmm.releasable_iff hheld.1).2 ⟨hheld, hmapped⟩
  rw [pmmFreeBlock, dif_pos ⟨hheld.1, hrelease⟩]
  exact Pmm.gives_give hheld.1 hrelease

theorem pmmFreeBlock_cases (address : UInt32) (pmm : Pmm) :
    pmmFreeBlock address pmm = pmm ∨ pmm.Held address ∧ ¬pmm.Mapped address ∧
      pmm.Gives address (pmmFreeBlock address pmm) := by
  by_cases hfree : pmm.Held address ∧ ¬pmm.Mapped address
  · exact .inr ⟨hfree.1, hfree.2, pmmFreeBlock_gives hfree.1 hfree.2⟩
  · refine .inl (dif_neg fun h ↦ hfree ?_)
    exact (Pmm.releasable_iff h.1).1 h.2

/-! ### Giving back many frames -/

namespace Pmm

variable {pmm middle other : Pmm} {first second : UInt32 → Prop}

/-- A set of frames is free again and no longer anyone's. -/
structure Reclaims (pmm : Pmm) (frames : UInt32 → Prop) (other : Pmm) : Prop where
  map : SameMap pmm other
  held : ∀ x, other.Held x ↔ pmm.Held x ∧ ¬frames x
  owned : ∀ x, other.Owned x ↔ pmm.Owned x ∧ ¬frames x
  mapped : ∀ x, other.Mapped x ↔ pmm.Mapped x ∧ ¬frames x

/-- The two say the same of some frames. -/
def SameOn (frames : UInt32 → Prop) (pmm other : Pmm) : Prop :=
  ∀ x, frames x → (other.Held x ↔ pmm.Held x) ∧ (other.Mapped x ↔ pmm.Mapped x)

theorem Reclaims.refl (pmm : Pmm) : Reclaims pmm (fun _ ↦ False) pmm :=
  ⟨.refl pmm, fun _ ↦ by simp, fun _ ↦ by simp, fun _ ↦ by simp⟩

theorem Reclaims.trans (hfirst : Reclaims pmm first middle)
    (hsecond : Reclaims middle second other) :
    Reclaims pmm (fun x ↦ first x ∨ second x) other where
  map := hfirst.map.trans hsecond.map
  held x := by rw [hsecond.held, hfirst.held, not_or, and_assoc]
  owned x := by rw [hsecond.owned, hfirst.owned, not_or, and_assoc]
  mapped x := by rw [hsecond.mapped, hfirst.mapped, not_or, and_assoc]

theorem Reclaims.congr (h : Reclaims pmm first other) (hsame : ∀ x, first x ↔ second x) :
    Reclaims pmm second other := by
  rwa [show second = first from funext fun x ↦ propext (hsame x).symm]

theorem Reclaims.sameOn (h : Reclaims pmm first other) (hdisjoint : ∀ x, second x → ¬first x) :
    SameOn second pmm other := by
  intro x hx
  rw [h.held, h.mapped]
  exact ⟨and_iff_left (hdisjoint x hx), and_iff_left (hdisjoint x hx)⟩

/-- Going through a list gives back the frames of all its elements. -/
theorem reclaims_foldl {α : Type} (release : Pmm → α → Pmm) (frames : α → UInt32 → Prop)
    (items : List α)
    (hrelease : ∀ item ∈ items, ∀ other, SameOn (frames item) pmm other →
      Reclaims other (frames item) (release other item))
    (hdisjoint : items.Pairwise fun earlier later ↦ ∀ x, frames later x → ¬frames earlier x) :
    Reclaims pmm (fun x ↦ ∃ item ∈ items, frames item x) (items.foldl release pmm) := by
  induction items generalizing pmm with
  | nil => exact (Reclaims.refl pmm).congr fun x ↦ by simp
  | cons item rest ih =>
    rw [List.pairwise_cons] at hdisjoint
    have hfirst := hrelease item List.mem_cons_self pmm fun x _ ↦ ⟨Iff.rfl, Iff.rfl⟩
    refine (hfirst.trans (ih ?_ hdisjoint.2)).congr fun x ↦ by simp
    intro later hlater other hsame
    refine hrelease later (List.mem_cons_of_mem _ hlater) other fun x hx ↦ ?_
    obtain ⟨hheld, hmapped⟩ := hsame x hx
    have hkept := hfirst.sameOn (hdisjoint.1 later hlater) x hx
    exact ⟨hheld.trans hkept.1, hmapped.trans hkept.2⟩

end Pmm

/-- Giving back one frame that nobody maps. -/
theorem pmmFreeBlock_reclaims (hheld : pmm.Held address) (hmapped : ¬pmm.Mapped address) :
    pmm.Reclaims (· = address) (pmmFreeBlock address pmm) := by
  have hgives := pmmFreeBlock_gives hheld hmapped
  refine ⟨hgives.map, hgives.held, hgives.owned, fun x ↦ ?_⟩
  rw [hgives.mapped]
  refine ⟨fun h ↦ ⟨h, ?_⟩, And.left⟩
  rintro rfl
  exact hmapped h

/-- Giving back one frame that a process had mapped. -/
theorem pmmFreeBlock_release_reclaims (hmapped : pmm.Mapped address) :
    pmm.Reclaims (· = address) (pmmFreeBlock address (pmmReleaseUserBlock address pmm)) := by
  have hmarks := pmmReleaseUserBlock_marks hmapped
  have hnot : ¬(pmmReleaseUserBlock address pmm).Mapped address := by
    rw [hmarks.mapped]
    rintro (⟨-, hfalse⟩ | ⟨hne, -⟩)
    · cases hfalse
    · exact hne rfl
  have hgives := pmmFreeBlock_gives ((hmarks.held _).2 hmapped.owned.held) hnot
  refine ⟨hmarks.map.trans hgives.map, fun x ↦ ?_, fun x ↦ ?_, fun x ↦ ?_⟩
  · rw [hgives.held, hmarks.held]
  · rw [hgives.owned, hmarks.owned]
  · rw [hgives.mapped, hmarks.mapped]
    simp [and_comm]

end EfesOS.Memory
