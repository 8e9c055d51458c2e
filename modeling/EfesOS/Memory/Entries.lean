import Mathlib.Data.Nat.Bitwise
import EfesOS.Memory.Paging

/-!
# What page table entries hold

The bits of the entries that the paging code builds, what a stored entry reads back as, and the
arithmetic of indices: an address is found in the tables along `Mode.path`, and the addresses that
processes may map are those of the user regions (`userRegion_iff`).
-/

set_option autoImplicit false

namespace EfesOS.Memory

variable {memory : Ram} {frame other physical flags address : UInt32} {index slot : ℕ}
  {mode : Mode} {nxEnabled : Bool} {entry : Entry}

/-! ### Bits -/

theorem and_or_left (first second third : UInt32) :
    first &&& (second ||| third) = first &&& second ||| first &&& third := by
  rw [← UInt32.toBitVec_inj]
  exact BitVec.and_or_distrib_left

theorem or_and_right (first second third : UInt32) :
    (first ||| second) &&& third = first &&& third ||| second &&& third := by
  rw [← UInt32.toBitVec_inj]
  exact BitVec.and_or_distrib_right

theorem and_mask_of_aligned (haligned : Aligned physical) :
    physical &&& pageAddressMask = physical := by
  have hsplit : physical &&& (0xFFF ||| pageAddressMask) = physical := UInt32.and_neg_one
  rw [and_or_left, show physical &&& 0xFFF = 0 from haligned, UInt32.zero_or]
    at hsplit
  exact hsplit

theorem aligned_and_mask (word : UInt32) : Aligned (word &&& pageAddressMask) := by
  rw [Aligned, UInt32.and_assoc, show pageAddressMask &&& 0xFFF = 0 from rfl, UInt32.and_zero]

theorem toNat_and_pageAddressMask (word : UInt32) :
    (word &&& pageAddressMask).toNat = word.toNat / 4096 * 4096 := by
  have hbound := word.toNat_lt
  have hmask : pageAddressMask.toNat = (2 ^ 20 - 1) * 2 ^ 12 := rfl
  rw [UInt32.toNat_and, hmask]
  refine Nat.eq_of_testBit_eq fun index ↦ ?_
  rw [show word.toNat / 4096 * 4096 = word.toNat / 2 ^ 12 * 2 ^ 12 from rfl, Nat.testBit_and,
    Nat.testBit_mul_two_pow, Nat.testBit_mul_two_pow, Nat.testBit_two_pow_sub_one,
    Nat.testBit_div_two_pow]
  by_cases hindex : 12 ≤ index
  · have hsum : index - 12 + 12 = index := by omega
    rw [hsum]
    by_cases hsmall : index < 32
    · simp [hindex, show index - 12 < 20 by omega]
    · have hzero : word.toNat.testBit index = false :=
        Nat.testBit_lt_two_pow
          (hbound.trans_le (Nat.pow_le_pow_right (by decide) (not_lt.1 hsmall)))
      simp [hzero]
  · simp [hindex]

theorem Entry.aligned_physical (entry : Entry) : Aligned entry.physical :=
  aligned_and_mask entry.low

/-- A bit outside the address field says nothing of an aligned address. -/
theorem aligned_and_bit {bit : UInt32} (haligned : Aligned physical)
    (hbit : pageAddressMask &&& bit = 0) : physical &&& bit = 0 := by
  rw [← and_mask_of_aligned haligned, UInt32.and_assoc, hbit, UInt32.and_zero]

theorem ite_and_twoPow (word : UInt32) (bit : ℕ) (hbit : bit < 32) :
    (if word &&& UInt32.ofNat (2 ^ bit) ≠ 0 then UInt32.ofNat (2 ^ bit) else 0) =
      word &&& UInt32.ofNat (2 ^ bit) := by
  have hsmall : 2 ^ bit < 2 ^ 32 := Nat.pow_lt_pow_right (by decide) hbit
  have hpow : (UInt32.ofNat (2 ^ bit)).toNat = 2 ^ bit := by
    rw [UInt32.toNat_ofNat', Nat.mod_eq_of_lt hsmall]
  have hand : (word &&& UInt32.ofNat (2 ^ bit)).toNat =
      2 ^ bit * (word.toNat.testBit bit).toNat := by
    rw [UInt32.toNat_and, hpow, Nat.and_two_pow, Nat.mul_comm]
  split_ifs with hzero
  · rw [← UInt32.toNat_inj, hand, hpow]
    cases htest : word.toNat.testBit bit with
    | true => rw [Bool.toNat_true, Nat.mul_one]
    | false =>
      refine absurd ?_ hzero
      rw [← UInt32.toNat_inj, hand, htest, Bool.toNat_false, Nat.mul_zero]
      rfl
  · exact (not_not.1 hzero).symm

/-- The two formats keep the same bits in the first word of a leaf. -/
theorem low_leaf (mode : Mode) (nxEnabled : Bool) (physical flags : UInt32) :
    (mode.leaf nxEnabled physical flags).low =
      physical ||| pagePresent ||| (flags &&& pageAllowedFlags) := by
  cases mode with
  | legacy => rfl
  | pae =>
    have hwritable := ite_and_twoPow flags 1 (by decide)
    have huser := ite_and_twoPow flags 2 (by decide)
    have hexecutable := ite_and_twoPow flags 9 (by decide)
    simp only [Mode.leaf, paeFlagsToEntry]
    rw [show pageAllowedFlags = pageFlagWritable ||| pageFlagUser ||| pageFlagCacheDisable |||
      pageFlagExecutable from rfl, and_or_left, and_or_left,
      and_or_left]
    rw [show (if flags &&& pageFlagWritable ≠ 0 then pageFlagWritable else 0) =
      flags &&& pageFlagWritable from hwritable, show (if flags &&& pageFlagUser ≠ 0 then
      pageFlagUser else 0) = flags &&& pageFlagUser from huser,
      show (if flags &&& pageFlagExecutable ≠ 0 then pageFlagExecutable else 0) =
      flags &&& pageFlagExecutable from hexecutable]
    simp only [UInt32.or_assoc]

/-- A flag of a leaf is the flag it was made with. -/
theorem leaf_and_bit {bit : UInt32} (haligned : Aligned physical)
    (haddress : pageAddressMask &&& bit = 0) (hpresent : pagePresent &&& bit = 0)
    (hallowed : pageAllowedFlags &&& bit = bit) :
    (mode.leaf nxEnabled physical flags).low &&& bit = flags &&& bit := by
  rw [low_leaf, or_and_right, or_and_right, hpresent,
    aligned_and_bit haligned haddress, UInt32.and_assoc, hallowed, UInt32.or_zero, UInt32.zero_or]

theorem and_present_ne_zero (first second : UInt32) :
    (first ||| pagePresent ||| second) &&& pagePresent ≠ 0 := by
  rw [or_and_right, or_and_right, UInt32.and_self]
  intro hzero
  have hone := (UInt32.or_eq_zero_iff.1 (UInt32.or_eq_zero_iff.1 hzero).1).2
  exact absurd hone (by decide)

theorem present_leaf (mode : Mode) (nxEnabled : Bool) (physical flags : UInt32) :
    (mode.leaf nxEnabled physical flags).present = true := by
  rw [Entry.present, low_leaf, decide_eq_true_eq]
  exact and_present_ne_zero _ _

section

variable (haligned : Aligned physical)
include haligned

theorem user_leaf :
    (mode.leaf nxEnabled physical flags).user = decide (flags &&& pageFlagUser ≠ 0) := by
  rw [Entry.user, leaf_and_bit haligned rfl rfl rfl]

theorem writable_leaf :
    (mode.leaf nxEnabled physical flags).writable = decide (flags &&& pageFlagWritable ≠ 0) := by
  rw [Entry.writable, leaf_and_bit haligned rfl rfl rfl]

theorem executable_leaf :
    (mode.leaf nxEnabled physical flags).executable =
      decide (flags &&& pageFlagExecutable ≠ 0) := by
  rw [Entry.executable, leaf_and_bit haligned rfl rfl rfl]

theorem physical_leaf :
    (mode.leaf nxEnabled physical flags).physical = physical := by
  rw [Entry.physical, low_leaf, or_and_right, or_and_right, and_mask_of_aligned haligned,
    UInt32.and_assoc, show pagePresent &&& pageAddressMask = 0 from rfl,
    show pageAllowedFlags &&& pageAddressMask = 0 from rfl, UInt32.and_zero, UInt32.or_zero,
    UInt32.or_zero]

end

theorem noExecute_leaf_pae (hexecutable : flags &&& pageFlagExecutable = 0) :
    (Mode.leaf .pae true physical flags).noExecute = true := by
  have hhigh : (Mode.leaf .pae true physical flags).high = paeNx := if_pos ⟨rfl, hexecutable⟩
  rw [Entry.noExecute, hhigh]
  rfl

/-- Whether code on a page may run, by the flag of the code or by the processor's own rule. -/
def Entry.MayExecute (state : PagingState) (entry : Entry) : Prop :=
  entry.executable = true ∨
    (state.mode = .pae ∧ state.paeNxEnabled = true ∧ entry.noExecute = false)

theorem leaf_not_writable_and_executable (state : PagingState) (haligned : Aligned physical)
    (hflags : ¬flagsRefused flags)
    (hwritable : (state.mode.leaf state.paeNxEnabled physical flags).writable = true) :
    ¬(state.mode.leaf state.paeNxEnabled physical flags).MayExecute state := by
  rw [writable_leaf haligned, decide_eq_true_eq] at hwritable
  have hexecutable : flags &&& pageFlagExecutable = 0 := by
    by_contra hset
    refine hflags (.inr ?_)
    have hw : pageFlagWritable = flags &&& pageFlagWritable :=
      (if_pos hwritable).symm.trans (ite_and_twoPow flags 1 (by decide))
    have hx : pageFlagExecutable = flags &&& pageFlagExecutable :=
      (if_pos hset).symm.trans (ite_and_twoPow flags 9 (by decide))
    rw [and_or_left, ← hw, ← hx]
  rintro (hset | ⟨hmode, hnx, hclear⟩)
  · rw [executable_leaf haligned, decide_eq_true_eq] at hset
    exact hset hexecutable
  · rw [hmode, hnx, noExecute_leaf_pae hexecutable] at hclear
    cases hclear

theorem present_tableEntry (physical flags : UInt32) :
    (tableEntry physical flags).present = true := by
  rw [Entry.present, decide_eq_true_eq, tableEntry, UInt32.or_assoc (physical ||| pagePresent)]
  exact and_present_ne_zero _ _

theorem physical_tableEntry (haligned : Aligned physical) (flags : UInt32) :
    (tableEntry physical flags).physical = physical := by
  rw [Entry.physical, tableEntry, or_and_right, or_and_right, or_and_right,
    and_mask_of_aligned haligned, UInt32.and_assoc,
      show pagePresent &&& pageAddressMask = 0 from rfl,
    show pageFlagWritable &&& pageAddressMask = 0 from rfl,
    show pageFlagUser &&& pageAddressMask = 0 from rfl, UInt32.and_zero, UInt32.or_zero,
    UInt32.or_zero, UInt32.or_zero]

theorem user_tableEntry (haligned : Aligned physical) (flags : UInt32) :
    (tableEntry physical flags).user = decide (flags &&& pageFlagUser ≠ 0) := by
  rw [Entry.user, tableEntry, or_and_right, or_and_right, or_and_right,
    aligned_and_bit haligned rfl, UInt32.and_assoc, UInt32.and_self,
    show pagePresent &&& pageFlagUser = 0 from rfl,
    show pageFlagWritable &&& pageFlagUser = 0 from rfl, UInt32.or_zero, UInt32.or_zero,
    UInt32.zero_or]

theorem present_directoryEntry (physical : UInt32) : (directoryEntry physical).present = true := by
  rw [Entry.present, decide_eq_true_eq, directoryEntry,
    ← UInt32.or_zero (a := physical ||| pagePresent)]
  exact and_present_ne_zero _ _

theorem physical_directoryEntry (haligned : Aligned physical) :
    (directoryEntry physical).physical = physical := by
  rw [Entry.physical, directoryEntry, or_and_right, and_mask_of_aligned haligned,
    show pagePresent &&& pageAddressMask = 0 from rfl, UInt32.or_zero]

@[simp] theorem present_absent : Entry.absent.present = false := rfl

/-- Marking an entry as the user's says nothing new if it is. -/
theorem withUser_of_user (huser : entry.user = true) : entry.withUser = entry := by
  have hbit : pageFlagUser = entry.low &&& pageFlagUser :=
    (if_pos (of_decide_eq_true huser)).symm.trans (ite_and_twoPow entry.low 2 (by decide))
  have hor : entry.low ||| pageFlagUser = entry.low := by
    calc entry.low ||| pageFlagUser
        = entry.low &&& (-1) ||| entry.low &&& pageFlagUser := by
          rw [UInt32.and_neg_one, ← hbit]
      _ = entry.low &&& ((-1) ||| pageFlagUser) := (and_or_left _ _ _).symm
      _ = entry.low := UInt32.and_neg_one
  rw [Entry.withUser, hor]

/-! ### Stored entries -/

namespace Ram

@[simp] theorem toPagingState_onPmm (update : Pmm → Pmm) :
    (memory.onPmm update).toPagingState = memory.toPagingState := rfl

@[simp] theorem frames_onPmm (update : Pmm → Pmm) :
    (memory.onPmm update).frames = memory.frames := rfl

@[simp] theorem pmm_onPmm (update : Pmm → Pmm) :
    (memory.onPmm update).pmm = update memory.pmm := rfl

@[simp] theorem toPagingState_store (frame : UInt32) (page : Page) :
    (memory.store frame page).toPagingState = memory.toPagingState := rfl

@[simp] theorem pmm_store (frame : UInt32) (page : Page) :
    (memory.store frame page).pmm = memory.pmm := rfl

theorem frames_store (frame : UInt32) (page : Page) :
    (memory.store frame page).frames = Function.update memory.frames frame page := rfl

@[simp] theorem toPagingState_clearFrame (frame : UInt32) :
    (memory.clearFrame frame).toPagingState = memory.toPagingState := rfl

@[simp] theorem pmm_clearFrame (frame : UInt32) : (memory.clearFrame frame).pmm = memory.pmm := rfl

theorem frames_clearFrame_of_ne (hne : other ≠ frame) :
    (memory.clearFrame frame).frames other = memory.frames other := Function.update_of_ne hne _ _

theorem entry_clearFrame (frame : UInt32) (index : ℕ) :
    (memory.clearFrame frame).entry frame index = .absent := by
  have hframe : (memory.clearFrame frame).frames frame = fun _ ↦ 0 := Function.update_self _ _ _
  rw [entry, hframe]
  cases (memory.clearFrame frame).mode <;> rfl

@[simp] theorem toPagingState_setEntry (frame : UInt32) (index : ℕ) (entry : Entry) :
    (memory.setEntry frame index entry).toPagingState = memory.toPagingState := by
  unfold setEntry
  split <;> rfl

@[simp] theorem pmm_setEntry (frame : UInt32) (index : ℕ) (entry : Entry) :
    (memory.setEntry frame index entry).pmm = memory.pmm := by
  unfold setEntry
  split <;> rfl

theorem frames_setEntry_of_ne (entry : Entry) (hne : other ≠ frame) :
    (memory.setEntry frame index entry).frames other = memory.frames other := by
  unfold setEntry
  split
  · exact Function.update_of_ne hne _ _
  · simp only [frames_store, Function.update_of_ne hne]

/-- Frames with the same words hold the same entries. -/
theorem entry_congr {after : Ram} (hmode : after.mode = memory.mode)
    (hframe : after.frames frame = memory.frames frame) (index : ℕ) :
    after.entry frame index = memory.entry frame index := by
  rw [entry, entry, hmode, hframe]

theorem entry_setEntry_of_ne (entry : Entry) (hne : ¬(other = frame ∧ slot = index)) :
    (memory.setEntry frame index entry).entry other slot = memory.entry other slot := by
  by_cases hframe : other = frame
  · subst hframe
    have hslot : slot ≠ index := fun h ↦ hne ⟨rfl, h⟩
    unfold setEntry Ram.entry
    cases hmode : memory.mode with
    | legacy =>
      simp only [frames_store, toPagingState_store, hmode, Mode.entry, Function.update_self,
        Function.update_of_ne hslot]
    | pae =>
      simp only [frames_store, toPagingState_store, hmode, Mode.entry, Function.update_self]
      rw [Function.update_of_ne (by omega), Function.update_of_ne (by omega),
        Function.update_of_ne (by omega), Function.update_of_ne (by omega)]
  · exact entry_congr (by simp) (frames_setEntry_of_ne entry hframe) slot

/-- An entry reads back as it was stored; the short format has no second word. -/
theorem entry_setEntry (hnarrow : memory.mode = .legacy → entry.high = 0) :
    (memory.setEntry frame index entry).entry frame index = entry := by
  unfold setEntry Ram.entry
  cases hmode : memory.mode with
  | legacy =>
    simp only [frames_store, toPagingState_store, hmode, Mode.entry, Function.update_self]
    rw [← hnarrow hmode]
  | pae =>
    simp only [frames_store, toPagingState_store, hmode, Mode.entry, Function.update_self]
    rw [Function.update_of_ne (by omega), Function.update_self]

/-- Storing what is there changes no word. -/
theorem frames_setEntry_self (frame : UInt32) (index : ℕ) :
    (memory.setEntry frame index (memory.entry frame index)).frames = memory.frames := by
  unfold setEntry Ram.entry
  cases hmode : memory.mode with
  | legacy => simp only [frames_store, Mode.entry, Function.update_eq_self]
  | pae => simp only [frames_store, Mode.entry, Function.update_eq_self, Function.update_self]

@[simp] theorem toPagingState_invalidatePage (address : UInt32) :
    (memory.invalidatePage address).toPagingState = memory.toPagingState := by
  unfold invalidatePage
  split <;> rfl

@[simp] theorem pmm_invalidatePage (address : UInt32) :
    (memory.invalidatePage address).pmm = memory.pmm := by
  unfold invalidatePage
  split <;> rfl

@[simp] theorem frames_invalidatePage (address : UInt32) :
    (memory.invalidatePage address).frames = memory.frames := by
  unfold invalidatePage
  split <;> rfl

@[simp] theorem toPagingState_flushTlb : memory.flushTlb.toPagingState = memory.toPagingState := by
  unfold flushTlb
  split <;> rfl

@[simp] theorem pmm_flushTlb : memory.flushTlb.pmm = memory.pmm := by
  unfold flushTlb
  split <;> rfl

@[simp] theorem frames_flushTlb : memory.flushTlb.frames = memory.frames := by
  unfold flushTlb
  split <;> rfl

theorem high_entry (hmode : memory.mode = .legacy) (frame : UInt32) (index : ℕ) :
    (memory.entry frame index).high = 0 := by
  rw [entry, hmode]
  rfl

theorem tableInUse_eq_false {table : UInt32} : memory.tableInUse table = false ↔
    ∀ index < memory.mode.slots, (memory.entry table index).present = false := by
  simp [tableInUse]

end Ram

/-! ### Places of addresses -/

namespace Mode

/-- The slots from the root to the directory entry of an address. -/
def directoryPath : Mode → UInt32 → List ℕ
  | legacy, _ => []
  | pae, address => [pdptIndex address]

/-- The slots from the root to the table of an address, the last one first. -/
def tablePath (mode : Mode) (address : UInt32) : List ℕ :=
  mode.directoryIndex address :: mode.directoryPath address

/-- The slots from the root to the page of an address. -/
def path (mode : Mode) (address : UInt32) : List ℕ :=
  mode.tableIndex address :: mode.tablePath address

/-- The directory slots between four megabytes and the kernel's half. -/
def userRegion : Mode → List ℕ → ℕ → Prop
  | legacy, [], index => 1 ≤ index ∧ index < 768
  | pae, [upper], index => 2 ≤ 512 * upper + index ∧ 512 * upper + index < 1536
  | _, _, _ => False

end Mode

theorem toNat_and_mask (word : UInt32) (width : ℕ) (hwidth : width < 32) :
    (word &&& UInt32.ofNat (2 ^ width - 1)).toNat = word.toNat % 2 ^ width := by
  have hpow : 2 ^ width < 2 ^ 32 := Nat.pow_lt_pow_right (by decide) hwidth
  have hmask : (UInt32.ofNat (2 ^ width - 1)).toNat = 2 ^ width - 1 := by
    rw [UInt32.toNat_ofNat', Nat.mod_eq_of_lt (by omega)]
  rw [UInt32.toNat_and, hmask, Nat.and_two_pow_sub_one_eq_mod]

theorem pdptIndex_eq (address : UInt32) : pdptIndex address = address.toNat / 1073741824 := by
  exact Nat.shiftRight_eq_div_pow address.toNat 30

theorem pdptIndex_lt (address : UInt32) : pdptIndex address < 4 := by
  have hlt := address.toNat_lt
  rw [pdptIndex_eq]
  omega

namespace Mode

theorem tableIndex_eq (mode : Mode) (address : UInt32) :
    mode.tableIndex address = address.toNat / 4096 % mode.slots := by
  have hshift : (address >>> 12).toNat = address.toNat / 4096 := by
    exact Nat.shiftRight_eq_div_pow address.toNat 12
  cases mode with
  | legacy => exact (toNat_and_mask _ 10 (by decide)).trans (by rw [hshift]; rfl)
  | pae => exact (toNat_and_mask _ 9 (by decide)).trans (by rw [hshift]; rfl)

theorem directoryIndex_legacy (address : UInt32) :
    directoryIndex legacy address = address.toNat / 4194304 := by
  exact Nat.shiftRight_eq_div_pow address.toNat 22

theorem directoryIndex_pae (address : UInt32) :
    directoryIndex pae address = address.toNat / 2097152 % 512 := by
  have hshift : (address >>> 21).toNat = address.toNat / 2097152 := by
    exact Nat.shiftRight_eq_div_pow address.toNat 21
  exact (toNat_and_mask _ 9 (by decide)).trans (by rw [hshift]; rfl)

theorem tableIndex_lt (mode : Mode) (address : UInt32) : mode.tableIndex address < mode.slots := by
  rw [tableIndex_eq]
  exact Nat.mod_lt _ (by cases mode <;> decide)

theorem directoryIndex_lt (mode : Mode) (address : UInt32) :
    mode.directoryIndex address < mode.slots := by
  have hlt := address.toNat_lt
  cases mode with
  | legacy =>
    rw [directoryIndex_legacy]
    change _ < 1024
    omega
  | pae =>
    rw [directoryIndex_pae]
    exact Nat.mod_lt _ (by decide)

/-- The addresses that a process may map are those of the user regions. -/
theorem userRegion_iff (mode : Mode) (address : UInt32) :
    mode.userRegion (mode.directoryPath address) (mode.directoryIndex address) ↔
      userMappingMin ≤ address ∧ address < userAddressLimit := by
  have hmin : userMappingMin ≤ address ↔ 4194304 ≤ address.toNat := UInt32.le_iff_toNat_le
  have hmax : address < userAddressLimit ↔ address.toNat < 3221225472 := UInt32.lt_iff_toNat_lt
  rw [hmin, hmax]
  cases mode with
  | legacy =>
    simp only [directoryPath, userRegion, directoryIndex_legacy]
    omega
  | pae =>
    simp only [directoryPath, userRegion, directoryIndex_pae, pdptIndex_eq]
    omega

/-- An entry of low memory is not one of the kernel's half. -/
theorem tablePath_ne_of_low {mode : Mode} {address high : UInt32} (hlow : address < userMappingMin)
    (hhigh : userAddressLimit ≤ high) : mode.tablePath address ≠ mode.tablePath high := by
  have hlowNat : address.toNat < 4194304 := UInt32.lt_iff_toNat_lt.1 hlow
  have hhighNat : 3221225472 ≤ high.toNat := UInt32.le_iff_toNat_le.1 hhigh
  intro hpath
  injection hpath with hindex hupper
  cases mode with
  | legacy =>
    rw [directoryIndex_legacy, directoryIndex_legacy] at hindex
    omega
  | pae =>
    simp only [directoryPath, List.cons.injEq, and_true, pdptIndex_eq] at hupper
    omega

/-- The way to a page says which page it is. -/
theorem path_eq_iff (mode : Mode) (first second : UInt32) :
    mode.path first = mode.path second ↔ first.toNat / 4096 = second.toNat / 4096 := by
  cases mode with
  | legacy =>
    simp only [path, tablePath, directoryPath, tableIndex_eq, directoryIndex_legacy, slots,
      List.cons.injEq, and_true]
    omega
  | pae =>
    simp only [path, tablePath, directoryPath, tableIndex_eq, directoryIndex_pae, pdptIndex_eq,
      slots, List.cons.injEq, and_true]
    omega

/-- Every page of a table has an address. -/
theorem exists_path (mode : Mode) (address : UInt32) {slot : ℕ} (hslot : slot < mode.slots) :
    ∃ page, mode.path page = slot :: mode.tablePath address := by
  have hbound := address.toNat_lt
  have hslots : mode.slots = 1024 ∨ mode.slots = 512 := by cases mode <;> simp [slots]
  have hlt : address.toNat / (4096 * mode.slots) * (4096 * mode.slots) + slot * 4096 < 2 ^ 32 := by
    rcases hslots with hslots | hslots <;> rw [hslots] at hslot ⊢ <;> omega
  refine ⟨UInt32.ofNat
    (address.toNat / (4096 * mode.slots) * (4096 * mode.slots) + slot * 4096), ?_⟩
  rw [path, tableIndex_eq, UInt32.toNat_ofNat', Nat.mod_eq_of_lt hlt]
  cases mode with
  | legacy =>
    simp only [slots] at hslot hlt ⊢
    simp only [tablePath, directoryIndex_legacy, directoryPath, UInt32.toNat_ofNat',
      Nat.mod_eq_of_lt hlt, List.cons.injEq, and_true]
    omega
  | pae =>
    simp only [slots] at hslot hlt ⊢
    simp only [tablePath, directoryIndex_pae, directoryPath, pdptIndex_eq,
      UInt32.toNat_ofNat', Nat.mod_eq_of_lt hlt, List.cons.injEq, and_true]
    omega

end Mode

end EfesOS.Memory
