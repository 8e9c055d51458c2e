import EfesOS.Memory.FirmwareMap

/-!
# Runs of the physical allocator

Seven functions change the allocator after `pmm_init`. The bitmaps and counters stay consistent
because `Pmm` carries their invariant; what a run adds is the history of the blocks that were handed
out (`AllocatorCall.outstanding`). `allocator_contract` collects what holds in every state of every
run: what the counters count, which blocks an allocation may return and when it fails, that no block
is handed out twice, and which requests to free a block change nothing.
-/

set_option autoImplicit false

namespace EfesOS.Memory

inductive AllocatorCall where
  | allocBelow (limit : UInt32)
  | alloc
  | allocUser
  | claimUser (address : UInt32)
  | releaseUser (address : UInt32)
  | free (address : UInt32)
  | reserveRange (address length : UInt32)

namespace AllocatorCall

/-- The block that a call hands out, or 0, and the allocator after it. -/
def run : AllocatorCall → Pmm → UInt32 × Pmm
  | allocBelow limit, pmm => pmmAllocBlockBelow limit pmm
  | alloc, pmm => pmmAllocBlock pmm
  | allocUser, pmm => pmmAllocUserBlock pmm
  | claimUser address, pmm => (0, (pmmClaimUserBlock address pmm).2)
  | releaseUser address, pmm => (0, pmmReleaseUserBlock address pmm)
  | free address, pmm => (0, pmmFreeBlock address pmm)
  | reserveRange address length, pmm => (0, pmmReserveRange address length pmm)

/-- The blocks that were handed out and not freed since. A request to free that the allocator turns
down does not count. -/
def outstanding (call : AllocatorCall) (pmm : Pmm) (before : List UInt32) : List UInt32 :=
  match call with
  | free address =>
    if (pmmFreeBlock address pmm).bitmap (blockOf address) =
      pmm.bitmap (blockOf address) then before
    else before.filter (· ≠ address)
  | _ => if (call.run pmm).1 = 0 then before else (call.run pmm).1 :: before

end AllocatorCall

/-- The states of the allocator with the blocks that are out. -/
inductive AllocatorReaches (info : BootInfo) (kernelStart kernelEnd : UInt32) :
    Pmm → List UInt32 → Prop where
  | init {pmm : Pmm} (hinit : pmmInit info kernelStart kernelEnd = some pmm) :
      AllocatorReaches info kernelStart kernelEnd pmm []
  | step {pmm : Pmm} {out : List UInt32}
      (hrun : AllocatorReaches info kernelStart kernelEnd pmm out)
      (call : AllocatorCall) :
      AllocatorReaches info kernelStart kernelEnd (call.run pmm).2 (call.outstanding pmm out)

/-! ### What is counted -/

theorem countUsable_split (bitmap usableBitmap : ℕ → Bool) :
    countUsable usableBitmap = countUsed bitmap usableBitmap +
      countUsable fun block ↦ usableBitmap block && !bitmap block := by
  have hused : ((Finset.range pmmMaxBlocks).filter fun block ↦
      bitmap block && usableBitmap block) =
      ((Finset.range pmmMaxBlocks).filter fun block ↦ usableBitmap block).filter
        fun block ↦ bitmap block := by
    ext block
    simp only [Finset.mem_filter, Bool.and_eq_true]
    exact ⟨fun ⟨hrange, hbit, husable⟩ ↦ ⟨⟨hrange, husable⟩, hbit⟩,
      fun ⟨⟨hrange, husable⟩, hbit⟩ ↦ ⟨hrange, hbit, husable⟩⟩
  have hfree : ((Finset.range pmmMaxBlocks).filter fun block ↦
      usableBitmap block && !bitmap block) =
      ((Finset.range pmmMaxBlocks).filter fun block ↦ usableBitmap block).filter
        fun block ↦ ¬bitmap block = true := by
    ext block
    simp [and_assoc]
  rw [countUsed, countUsable, countUsable, hused, hfree]
  exact (Finset.card_filter_add_card_filter_not _).symm

theorem toNat_pmmFreeBlocks (pmm : Pmm) : (pmmFreeBlocks pmm).toNat =
    countUsable fun block ↦ pmm.usableBitmap block && !pmm.bitmap block := by
  have hsplit := countUsable_split pmm.bitmap pmm.usableBitmap
  have hle : pmm.usedManagedBlocks ≤ pmm.managedBlocks := by
    rw [UInt32.le_iff_toNat_le, pmm.managed_eq, pmm.count_eq, hsplit]
    exact Nat.le_add_right _ _
  rw [pmmFreeBlocks, UInt32.toNat_sub_of_le _ _ hle, pmm.managed_eq, pmm.count_eq, hsplit]
  exact Nat.add_sub_cancel_left _ _

/-! ### What is handed out -/

/-- An allocation between two addresses returns a block that was free there, or fails because there
is none. -/
structure Allocates (pmm : Pmm) (low high : ℕ) (result : UInt32 × Pmm) : Prop where
  found : result.1 ≠ 0 → ∃ block, result.1.toNat = block * pmmBlockSize ∧
    low ≤ block * pmmBlockSize ∧ (block + 1) * pmmBlockSize ≤ high ∧
    pmm.usableBitmap block = true ∧ pmm.bitmap block = false ∧
    result.2.bitmap = Function.update pmm.bitmap block true
  full : result.1 = 0 → result.2 = pmm ∧ ∀ block, low ≤ block * pmmBlockSize →
    (block + 1) * pmmBlockSize ≤ high →
    ¬(pmm.usableBitmap block = true ∧ pmm.bitmap block = false)

theorem blockAddress_ne_zero {block : ℕ} (hblock : block < pmmMaxBlocks)
    (hlow : pmmLowBlocks ≤ block) :
    blockAddress block ≠ 0 := by
  intro hzero
  have hnat := toNat_blockAddress hblock
  rw [hzero] at hnat
  have hpositive : 256 ≤ block := hlow
  change 0 = block * 4096 at hnat
  omega

theorem pmmAllocBlockBelow_allocates (limit : UInt32) (pmm : Pmm) :
    Allocates pmm 0x00100000 limit.toNat (pmmAllocBlockBelow limit pmm) := by
  unfold pmmAllocBlockBelow
  dsimp only
  split
  next hnone =>
    refine ⟨fun hne ↦ absurd rfl hne, fun _ ↦ ⟨rfl, ?_⟩⟩
    rintro block hlow hhigh ⟨-, hfree⟩
    rw [List.find?_eq_none] at hnone
    refine hnone block (mem_blocksBetween.2 ⟨?_, ?_⟩) (by rw [hfree]; rfl)
    · exact (pmm.free_spec block hfree).2.1
    · refine lt_min ?_ (pmm.free_spec block hfree).2.2
      change block < limit.toNat / 4096
      change (block + 1) * 4096 ≤ limit.toNat at hhigh
      omega
  next block hfound =>
    have hmem := mem_blocksBetween.1 (List.mem_of_find?_eq_some hfound)
    have hfree : pmm.bitmap block = false := by simpa using List.find?_some hfound
    have hspec := pmm.free_spec block hfree
    have hmax := hspec.2.2.trans_le pmm.detected_le
    refine ⟨fun _ ↦ ⟨block, toNat_blockAddress hmax, ?_, ?_, hspec.1, hfree, rfl⟩,
      fun hzero ↦ absurd hzero (blockAddress_ne_zero hmax hspec.2.1)⟩
    · have hlow : 256 ≤ block := hspec.2.1
      change 1048576 ≤ block * 4096
      omega
    · have hlimit : block < limit.toNat / 4096 := hmem.2.trans_le (min_le_left _ _)
      change (block + 1) * 4096 ≤ limit.toNat
      omega

theorem pmmAllocUserBlock_allocates (pmm : Pmm) :
    Allocates pmm 0x00400000 0x10000000 (pmmAllocUserBlock pmm) := by
  unfold pmmAllocUserBlock
  split
  next hnone =>
    refine ⟨fun hne ↦ absurd rfl hne, fun _ ↦ ⟨rfl, ?_⟩⟩
    rintro block hlow hhigh ⟨husable, hfree⟩
    rw [List.find?_eq_none] at hnone
    refine hnone block (mem_blocksBetween.2 ⟨?_, ?_⟩) (by rw [hfree, husable]; rfl)
    · change 1024 ≤ block
      change 4194304 ≤ block * 4096 at hlow
      omega
    · refine lt_min (pmm.free_spec block hfree).2.2 ?_
      change block < 65536
      change (block + 1) * 4096 ≤ 268435456 at hhigh
      omega
  next block hfound =>
    have hmem := mem_blocksBetween.1 (List.mem_of_find?_eq_some hfound)
    have htest := List.find?_some hfound
    have hfree : pmm.bitmap block = false := by
      simp only [Bool.and_eq_true, Bool.not_eq_true'] at htest
      exact htest.1
    have hspec := pmm.free_spec block hfree
    have hmax := hspec.2.2.trans_le pmm.detected_le
    refine ⟨fun _ ↦ ⟨block, toNat_blockAddress hmax, ?_, ?_, hspec.1, hfree, rfl⟩,
      fun hzero ↦ absurd hzero (blockAddress_ne_zero hmax hspec.2.1)⟩
    · have hlow : 1024 ≤ block := hmem.1
      change 4194304 ≤ block * 4096
      omega
    · have hhigh : block < 65536 := hmem.2.trans_le (min_le_right _ _)
      change (block + 1) * 4096 ≤ 268435456
      omega

variable {pmm : Pmm}

/-- What was handed out is used. -/
theorem Allocates.ne_of_used {low high : ℕ} {result : UInt32 × Pmm} {address : UInt32}
    (h : Allocates pmm low high result) (hused : pmm.bitmap (blockOf address) = true)
    (hne : address ≠ 0) : result.1 ≠ address := by
  rintro rfl
  obtain ⟨block, hnat, -, -, -, hfree, -⟩ := h.found hne
  have hblock : blockOf result.1 = block := by
    rw [blockOf, hnat]
    exact Nat.mul_div_cancel block (by decide)
  rw [hblock, hfree] at hused
  cases hused

/-! ### What stays handed out -/

/-- Blocks that are out are used. -/
def OutUsed (pmm : Pmm) (out : List UInt32) : Prop :=
  ∀ address ∈ out, address ≠ 0 ∧ Aligned address ∧ pmm.bitmap (blockOf address) = true

theorem bitmap_reserve (pmm : Pmm) (block other : ℕ) (hused : pmm.bitmap other = true) :
    (pmm.reserve block).bitmap other = true := by
  unfold Pmm.reserve
  split
  next hblock =>
    rw [pmm.bitmap_markBlockReserved hblock, Function.update_apply]
    split_ifs
    · rfl
    · exact hused
  next => exact hused

theorem bitmap_pmmReserveRange (pmm : Pmm) (address length : UInt32) (other : ℕ)
    (hused : pmm.bitmap other = true) :
    (pmmReserveRange address length pmm).bitmap other = true := by
  unfold pmmReserveRange
  induction blocksOfRange address length generalizing pmm with
  | nil => exact hused
  | cons block rest ih => exact ih (pmm.reserve block) (bitmap_reserve pmm block other hused)

variable {out : List UInt32}

theorem OutUsed.allocates {low high : ℕ} {result : UInt32 × Pmm} (hout : OutUsed pmm out)
    (h : Allocates pmm low high result) :
    OutUsed result.2 (if result.1 = 0 then out else result.1 :: out) := by
  split_ifs with hzero
  · rw [(h.full hzero).1]
    exact hout
  · obtain ⟨block, hnat, -, -, -, -, hbitmap⟩ := h.found hzero
    have hblock : blockOf result.1 = block := by
      rw [blockOf, hnat]
      exact Nat.mul_div_cancel block (by decide)
    intro address hmem
    rw [hbitmap, Function.update_apply]
    rcases List.mem_cons.1 hmem with rfl | hmem
    · refine ⟨hzero, aligned_iff.2 ?_, if_pos hblock⟩
      rw [hnat]
      exact Nat.mul_mod_left block pmmBlockSize
    · obtain ⟨hne, haligned, hused⟩ := hout address hmem
      refine ⟨hne, haligned, ?_⟩
      split_ifs
      · rfl
      · exact hused

theorem bitmap_pmmClaimUserBlock (address : UInt32) (pmm : Pmm) :
    (pmmClaimUserBlock address pmm).2.bitmap = pmm.bitmap := by
  unfold pmmClaimUserBlock
  split_ifs <;> rfl

theorem bitmap_pmmReleaseUserBlock (address : UInt32) (pmm : Pmm) :
    (pmmReleaseUserBlock address pmm).bitmap = pmm.bitmap := by
  unfold pmmReleaseUserBlock
  split_ifs <;> rfl

theorem OutUsed.free (hout : OutUsed pmm out) (address : UInt32) :
    OutUsed (pmmFreeBlock address pmm) ((AllocatorCall.free address).outstanding pmm out) := by
  unfold AllocatorCall.outstanding
  dsimp only
  by_cases hrelease : Aligned address ∧ pmm.Releasable (blockOf address)
  · have hbitmap : (pmmFreeBlock address pmm).bitmap =
        Function.update pmm.bitmap (blockOf address) false := by
      rw [pmmFreeBlock, dif_pos hrelease]
      rfl
    rw [hbitmap, Function.update_self, hrelease.2.1, if_neg (by simp)]
    intro other hother
    rw [List.mem_filter, decide_eq_true_eq] at hother
    obtain ⟨hne, haligned, hused⟩ := hout other hother.1
    refine ⟨hne, haligned, ?_⟩
    rw [hbitmap, Function.update_of_ne fun heq ↦ hother.2 (blockOf_inj haligned hrelease.1 heq)]
    exact hused
  · have hsame : pmmFreeBlock address pmm = pmm := dif_neg hrelease
    rw [hsame, if_pos rfl]
    exact hout

/-- One call keeps the blocks that are out used. -/
theorem OutUsed.step (hout : OutUsed pmm out) (call : AllocatorCall) :
    OutUsed (call.run pmm).2 (call.outstanding pmm out) := by
  cases call with
  | allocBelow limit => exact hout.allocates (pmmAllocBlockBelow_allocates limit pmm)
  | alloc => exact hout.allocates (pmmAllocBlockBelow_allocates 0xFFFFFFFF pmm)
  | allocUser => exact hout.allocates (pmmAllocUserBlock_allocates pmm)
  | claimUser address =>
    intro other hother
    rw [AllocatorCall.run, bitmap_pmmClaimUserBlock]
    exact hout other hother
  | releaseUser address =>
    intro other hother
    rw [AllocatorCall.run, bitmap_pmmReleaseUserBlock]
    exact hout other hother
  | free address => exact hout.free address
  | reserveRange address length =>
    intro other hother
    obtain ⟨hne, haligned, hused⟩ := hout other hother
    exact ⟨hne, haligned, bitmap_pmmReserveRange pmm address length _ hused⟩

theorem AllocatorReaches.outUsed {info : BootInfo} {kernelStart kernelEnd : UInt32}
    (hrun : AllocatorReaches info kernelStart kernelEnd pmm out) :
    OutUsed pmm out := by
  induction hrun with
  | init _ => exact fun _ hmem ↦ absurd hmem List.not_mem_nil
  | step _ call ih => exact ih.step call

/-! ### The contract -/

/-- What the allocator keeps to, given the blocks that are out. -/
structure AllocatorContract (pmm : Pmm) (out : List UInt32) : Prop where
  total : (pmmTotalBlocks pmm).toNat = countUsable pmm.usableBitmap
  free : (pmmFreeBlocks pmm).toNat =
    countUsable fun block ↦ pmm.usableBitmap block && !pmm.bitmap block
  unusable : ∀ block, pmm.usableBitmap block = false → pmm.bitmap block = true
  mapped : ∀ block, pmm.userMappedBitmap block = true → pmm.bitmap block = true
  below : ∀ limit, Allocates pmm 0x00100000 limit.toNat (pmmAllocBlockBelow limit pmm)
  anywhere : Allocates pmm 0x00100000 0xFFFFFFFF (pmmAllocBlock pmm)
  user : Allocates pmm 0x00400000 0x10000000 (pmmAllocUserBlock pmm)
  fresh : ∀ address ∈ out, (∀ limit, (pmmAllocBlockBelow limit pmm).1 ≠ address) ∧
    (pmmAllocBlock pmm).1 ≠ address ∧ (pmmAllocUserBlock pmm).1 ≠ address
  refused : ∀ address, ¬Aligned address ∨ blockOf address < pmmLowBlocks ∨
    pmm.detectedBlocks ≤ blockOf address ∨ pmm.usableBitmap (blockOf address) = false ∨
    pmm.bitmap (blockOf address) = false ∨ pmm.userMappedBitmap (blockOf address) = true →
    pmmFreeBlock address pmm = pmm

theorem Pmm.used_of_unusable (pmm : Pmm) {block : ℕ} (hunusable : pmm.usableBitmap block = false) :
    pmm.bitmap block = true := by
  by_contra hfree
  rw [(pmm.free_spec block (by simpa using hfree)).1] at hunusable
  cases hunusable

theorem pmmFreeBlock_refused {address : UInt32}
    (h : ¬Aligned address ∨ blockOf address < pmmLowBlocks ∨
      pmm.detectedBlocks ≤ blockOf address ∨ pmm.usableBitmap (blockOf address) = false ∨
      pmm.bitmap (blockOf address) = false ∨ pmm.userMappedBitmap (blockOf address) = true) :
    pmmFreeBlock address pmm = pmm := by
  refine dif_neg ?_
  rintro ⟨haligned, hused, husable, hlow, hdetected, hmapped⟩
  rcases h with hodd | hbelow | hout | hunusable | hfree | hstill
  · exact hodd haligned
  · exact absurd hlow (not_le.2 hbelow)
  · exact absurd hdetected (not_lt.2 hout)
  · rw [hunusable] at husable
    cases husable
  · rw [hfree] at hused
    cases hused
  · rw [hstill] at hmapped
    cases hmapped

/-- The contract holds in every state of every run. -/
theorem allocator_contract {info : BootInfo} {kernelStart kernelEnd : UInt32} {pmm : Pmm}
    {out : List UInt32} (hrun : AllocatorReaches info kernelStart kernelEnd pmm out) :
    AllocatorContract pmm out where
  total := pmm.managed_eq
  free := toNat_pmmFreeBlocks pmm
  unusable _ := pmm.used_of_unusable
  mapped block hmapped := (pmm.user_spec block (pmm.mapped_user block hmapped)).1
  below limit := pmmAllocBlockBelow_allocates limit pmm
  anywhere := pmmAllocBlockBelow_allocates 0xFFFFFFFF pmm
  user := pmmAllocUserBlock_allocates pmm
  fresh address hmem := by
    obtain ⟨hne, -, hused⟩ := hrun.outUsed address hmem
    exact ⟨fun limit ↦ (pmmAllocBlockBelow_allocates limit pmm).ne_of_used hused hne,
      (pmmAllocBlockBelow_allocates 0xFFFFFFFF pmm).ne_of_used hused hne,
      (pmmAllocUserBlock_allocates pmm).ne_of_used hused hne⟩
  refused _ := pmmFreeBlock_refused

theorem allocator_contract_smallMachine : ∃ pmm out,
    AllocatorReaches smallMachine 0x10000 0x80000 pmm out ∧ AllocatorContract pmm out := by
  -- a block is handed out, its range reserved behind the caller's back, and another block asked for
  have hrun := (((AllocatorReaches.init pmmInit_smallMachine).step .allocUser).step
    (.reserveRange 0x00400000 0x1000)).step (.allocBelow 0x00400000)
  exact ⟨_, _, hrun, allocator_contract hrun⟩

end EfesOS.Memory
