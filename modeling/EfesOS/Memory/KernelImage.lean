import EfesOS.Memory.Boot
import EfesOS.Memory.FirmwareMap

/-!
# The kernel's own pages

What `paging_init` leaves in the tree of the kernel, entry by entry: `MapsLow` says which entries
map the pages of low memory. The pages are mapped to themselves, the framebuffer goes elsewhere, and
`protect_kernel_read_only` rewrites the entries from the start of the code to the end of the
constants.

In the two-level format that takes away the right to write from all of them. In the three-level
format it does so for the code only; the constants lose the right to be run. So both are protected
exactly when the two-level format is in use or no page of constants lies behind the code:
`kernel_image_protected_iff`.
-/

set_option autoImplicit false

namespace EfesOS.Memory

open EfesOS.Foundation.PageTree

/-! ### Entries -/

section Bits

variable {physical : UInt32}

theorem writable_tableEntry (haligned : Aligned physical) (flags : UInt32) :
    (tableEntry physical flags).writable = true := by
  rw [Entry.writable, tableEntry, or_and_right, or_and_right, or_and_right,
    aligned_and_bit haligned rfl, UInt32.and_assoc,
      show pageFlagUser &&& pageFlagWritable = 0 from rfl,
    UInt32.and_zero, UInt32.or_zero]
  rfl

theorem present_identityEntry (mode : Mode) (nxEnabled : Bool) (page : ℕ) :
    (identityEntry mode nxEnabled page).present = true := by
  rw [Entry.present, decide_eq_true_eq]
  exact and_present_ne_zero _ _

theorem writable_identityEntry (mode : Mode) (nxEnabled : Bool) (page : ℕ) :
    (identityEntry mode nxEnabled page).writable = true := by
  rw [Entry.writable, decide_eq_true_eq]
  change (UInt32.ofNat page * pageSize ||| pagePresent ||| pageFlagWritable) &&&
    pageFlagWritable ≠ 0
  rw [or_and_right, or_and_right, aligned_and_bit (aligned_mul_pageSize _) rfl]
  decide

end Bits

/-! ### Low memory -/

/-- The pages of low memory, and the entries that map them in the tree of the kernel. -/
structure MapsLow (memory : Ram) (pages : ℕ → Entry) : Prop where
  table : ∀ address, pageSize ≤ address → address < lowIdentityLimit →
    ∃ entry, tableOf memory.kernelPageDirectory address memory = some entry ∧ entry.writable = true
  page : ∀ address, pageSize ≤ address → address < lowIdentityLimit →
    mappingOf memory.kernelPageDirectory address memory = some (pages (blockOf address))

section Low

variable {memory : Ram} {root address : UInt32}

theorem mappingOf_of_tableOf {entry : Entry} (htable : tableOf root address memory = some entry)
    (hne : entry.physical ≠ 0) : mappingOf root address memory =
      (memory.entry entry.physical (memory.mode.tableIndex address)).view := by
  obtain ⟨hentry, hpresent⟩ := Entry.view_eq_some.1 htable
  rw [mappingOf, leafOf, getPageTableFor_eq, hentry, if_pos hpresent, if_neg hne]

/-- Tables that map the pages of low memory to themselves. -/
theorem mapsLow_of_tables {nxEnabled : Bool} (table : UInt32 → UInt32)
    (hframes : ∀ address, Aligned (table address) ∧ table address ≠ 0)
    (htable : ∀ address, address < lowIdentityLimit →
      tableOf memory.kernelPageDirectory address memory = some (tableEntry (table address) 0))
    (hpage : ∀ address, pageSize ≤ address → address < lowIdentityLimit →
      memory.entry (table address) (memory.mode.tableIndex address) =
        identityEntry memory.mode nxEnabled (blockOf address)) :
    MapsLow memory (identityEntry memory.mode nxEnabled) := by
  refine ⟨fun address _ hlow ↦ ⟨_, htable address hlow, writable_tableEntry (hframes address).1 0⟩,
    fun address hfirst hlow ↦ ?_⟩
  have hphysical := physical_tableEntry (hframes address).1 0
  rw [mappingOf_of_tableOf (htable address hlow) (by rw [hphysical]; exact (hframes address).2),
    hphysical, hpage address hfirst hlow]
  exact if_pos (present_identityEntry _ _ _)

theorem legacyBuildKernel_mapsLow {pmm : Pmm} {directory identity : UInt32}
    (hmode : memory.mode = .legacy) (htakes : TakesAll pmm [directory, identity] memory.pmm) :
    MapsLow (legacyBuildKernel directory identity (memory.startingFrom directory))
      (identityEntry .legacy memory.paeNxEnabled) := by
  have hstate := (legacyBuildKernel_keeps directory identity (memory.startingFrom directory)).1
  have hentry := entry_legacyBuildKernel directory identity (memory.startingFrom directory)
  generalize legacyBuildKernel directory identity (memory.startingFrom directory) = built at *
  have hbuilt : built.mode = .legacy := by rw [hstate]; exact hmode
  have hkernel : built.kernelPageDirectory = directory := by rw [hstate]; rfl
  have hdirectory := (htakes.held directory (by simp)).1.ne_zero
  have hidentity := (htakes.held identity (by simp)).1
  have hne : identity ≠ directory := by
    rintro rfl
    simpa using htakes.distinct
  refine hbuilt ▸ mapsLow_of_tables (fun _ ↦ identity) (fun _ ↦ ⟨hidentity.1, hidentity.ne_zero⟩)
    (fun address hlow ↦ ?_) fun address hfirst hlow ↦ ?_
  · have hlowNat : address.toNat < 4194304 := UInt32.lt_iff_toNat_lt.1 hlow
    rw [hkernel, tableOf, directoryEntryOf, directoryFor, hbuilt, if_neg hdirectory, hentry,
      legacyEntry_directory hne, Mode.directoryIndex_legacy, if_pos (by omega), Entry.view,
      if_pos (present_tableEntry _ _)]
  · have hfirstNat : 4096 ≤ address.toNat := UInt32.le_iff_toNat_le.1 hfirst
    have hlowNat : address.toNat < 4194304 := UInt32.lt_iff_toNat_lt.1 hlow
    have hindex : address.toNat / 4096 % Mode.legacy.slots = blockOf address := by
      change address.toNat / 4096 % 1024 = address.toNat / 4096
      omega
    have hinside : 1 ≤ blockOf address ∧ blockOf address < 1024 := by
      change 1 ≤ address.toNat / 4096 ∧ address.toNat / 4096 < 1024
      omega
    rw [hentry, hbuilt, Mode.tableIndex_eq, hindex, legacyEntry_identity hne, if_pos hinside]
    exact congrArg (identityEntry · _ _) hmode

theorem paeBuildKernel_mapsLow {pmm : Pmm} {pdpt directory first second : UInt32}
    (hmode : memory.mode = .pae)
    (htakes : TakesAll pmm [pdpt, directory, first, second] memory.pmm) :
    MapsLow (paeBuildKernel pdpt directory first second (memory.startingFrom pdpt))
      (identityEntry .pae memory.paeNxEnabled) := by
  have hstate := (paeBuildKernel_keeps pdpt directory first second (memory.startingFrom pdpt)).1
  have hentry := entry_paeBuildKernel pdpt directory first second (memory.startingFrom pdpt)
  generalize paeBuildKernel pdpt directory first second (memory.startingFrom pdpt) = built at *
  have hbuilt : built.mode = .pae := by rw [hstate]; exact hmode
  have hkernel : built.kernelPageDirectory = pdpt := by rw [hstate]; rfl
  have hdistinct := htakes.distinct
  have hframe : ∀ frame ∈ [pdpt, directory, first, second], Aligned frame ∧ frame ≠ 0 :=
    fun frame hframe ↦ ⟨(htakes.held frame hframe).1.1, (htakes.held frame hframe).1.ne_zero⟩
  have hdirectory := hframe directory (by simp)
  refine hbuilt ▸ mapsLow_of_tables
    (fun address ↦ if address.toNat / 2097152 = 1 then second else first)
    (fun address ↦ ?_) (fun address hlow ↦ ?_) fun address habove hlow ↦ ?_
  · split_ifs
    · exact hframe second (by simp)
    · exact hframe first (by simp)
  · have hlowNat : address.toNat < 4194304 := UInt32.lt_iff_toNat_lt.1 hlow
    have hfor : directoryFor pdpt address built = directory := by
      rw [directoryFor, hbuilt, paePageDirectoryFor, hentry, paeEntry_pdpt hdistinct, pdptIndex_eq]
      simp [show address.toNat / 1073741824 = 0 by omega, hframe pdpt, present_directoryEntry,
        physical_directoryEntry hdirectory.1, paePdpEntries]
    rw [hkernel, tableOf, directoryEntryOf, hfor, hbuilt, if_neg hdirectory.2, hentry,
      paeEntry_directory hdistinct, Mode.directoryIndex_pae, Nat.mod_eq_of_lt (by omega)]
    split_ifs
    · exact if_pos (present_tableEntry _ _)
    · exact if_pos (present_tableEntry _ _)
    · omega
  · have haboveNat : 4096 ≤ address.toNat := UInt32.le_iff_toNat_le.1 habove
    have hlowNat : address.toNat < 4194304 := UInt32.lt_iff_toNat_lt.1 hlow
    have hblock : blockOf address = address.toNat / 4096 := rfl
    have hslots : Mode.pae.slots = 512 := rfl
    rw [hentry, hbuilt, Mode.tableIndex_eq, hslots, hblock]
    split_ifs
    · rw [paeEntry_second hdistinct, if_pos (by omega),
        show 512 + address.toNat / 4096 % 512 = address.toNat / 4096 by omega]
      exact congrArg (identityEntry · _ _) hmode
    · rw [paeEntry_first hdistinct, if_pos (by omega),
        show address.toNat / 4096 % 512 = address.toNat / 4096 by omega]
      exact congrArg (identityEntry · _ _) hmode

end Low

/-! ### The framebuffer -/

section Framebuffer

variable {memory : Ram} {role : UInt32 → Option Place} {pages : ℕ → Entry}

theorem MapsLow.congr {after : Ram} (hmaps : MapsLow memory pages)
    (hkernel : after.kernelPageDirectory = memory.kernelPageDirectory)
    (htables : ∀ address, address < lowIdentityLimit →
      tableOf memory.kernelPageDirectory address after =
        tableOf memory.kernelPageDirectory address memory)
    (hmappings : ∀ address, address < lowIdentityLimit →
      mappingOf memory.kernelPageDirectory address after =
        mappingOf memory.kernelPageDirectory address memory) : MapsLow after pages where
  table address hpage hlow := by
    rw [hkernel, htables address hlow]
    exact hmaps.table address hpage hlow
  page address hpage hlow := by
    rw [hkernel, hmappings address hlow]
    exact hmaps.page address hpage hlow

/-- A page of the kernel's half is mapped far from low memory. -/
theorem MapsLow.mapHigh (hmaps : MapsLow memory pages) (h : Isolated memory role)
    (hcurrent : memory.pageDirectory = memory.kernelPageDirectory) {high physical flags : UInt32}
    (hhigh : userAddressLimit ≤ high) :
    MapsLow (pagingMapPage high physical flags memory).2 pages := by
  have hkernelRoot : memory.IsRoot memory.kernelPageDirectory := .inl rfl
  have hregion :
      ∀ address, Isolated.OwnRegion memory.toPagingState memory.kernelPageDirectory address :=
    fun _ ↦ .inl rfl
  have htablePath : ∀ address, address < lowIdentityLimit →
      memory.mode.tablePath address ≠ memory.mode.tablePath high :=
    fun address hlow ↦ Mode.tablePath_ne_of_low hlow hhigh
  obtain ⟨middle, roleMiddle, hreshapes, -, ⟨hfailed, -⟩ | ⟨-, -, -, -, -, hwrites⟩⟩ :=
    pagingMapPage_spec h high physical flags fun _ _ ↦ ⟨hcurrent, hhigh⟩
  · rw [hfailed]
    exact hmaps.congr (by rw [hreshapes.state])
      (fun address hlow ↦ hreshapes.tables _ address hkernelRoot (.inr (htablePath address hlow)))
      fun address _ ↦ hreshapes.mappings _ address hkernelRoot (hregion address)
  · refine hmaps.congr (by rw [hwrites.state, hreshapes.state]) (fun address hlow ↦ ?_)
      fun address hlow ↦ ?_
    · rw [hwrites.tables _ address (by rw [hreshapes.state]; exact hkernelRoot),
        hreshapes.tables _ address hkernelRoot (.inr (htablePath address hlow))]
    · rw [hwrites.mappings _ address (by rw [hreshapes.state]; exact hkernelRoot)
        (by rw [hreshapes.state]; exact hregion address), hreshapes.mappings _ address hkernelRoot
        (hregion address)]
      rw [hreshapes.state]
      refine .inr fun hpath ↦ htablePath address hlow ?_
      injection hpath

theorem mapFramebuffer_mapsLow (fontAvailable : Bool) (hmaps : MapsLow memory pages)
    (h : Isolated memory role) (hcurrent : memory.pageDirectory = memory.kernelPageDirectory) :
    MapsLow (mapFramebuffer (framebufferPages fontAvailable) memory).2 pages := by
  suffices hall : (mapFramebuffer (framebufferPages fontAvailable) memory).2.toPagingState =
      memory.toPagingState ∧
      (∃ roleAfter, Isolated (mapFramebuffer (framebufferPages fontAvailable) memory).2 roleAfter) ∧
      MapsLow (mapFramebuffer (framebufferPages fontAvailable) memory).2 pages from hall.2.2
  refine mapFramebuffer_invariant (P := fun before ↦ before.toPagingState = memory.toPagingState ∧
    (∃ roleAfter, Isolated before roleAfter) ∧ MapsLow before pages) _ ?_ ⟨rfl, ⟨role, h⟩, hmaps⟩
  rintro before ⟨hstate, ⟨roleBefore, hbefore⟩, hlow⟩ index hindex
  have hhigh := framebufferPage_le (lt_of_mem_framebufferPages hindex)
  have hkernel : before.pageDirectory = before.kernelPageDirectory := by
    rw [hstate]
    exact hcurrent
  obtain ⟨hmapState, hmapped⟩ :=
    hbefore.mapHigh hkernel hhigh (framebufferPage index) pageFlagWritable
  exact ⟨hmapState.trans hstate, hmapped, hlow.mapHigh hbefore hkernel hhigh⟩

end Framebuffer

/-! ### Protection -/

section Protection

variable {memory : Ram} {role : UInt32 → Option Place} {pages : ℕ → Entry} {root address : UInt32}

theorem present_readOnlyEntry (textEnd address : UInt32) (state : PagingState) (entry : Entry) :
    (readOnlyEntry textEnd address state entry).present = entry.present := by
  rw [Entry.present, readOnlyEntry_and_bit _ _ _ _ rfl rfl rfl]
  rfl

/-- The entries after one page of the image was protected. -/
theorem MapsLow.protectPage (image : KernelImage) (hmaps : MapsLow memory pages)
    (h : Isolated memory role) (hcurrent : memory.pageDirectory = memory.kernelPageDirectory)
    (hpage : pageSize ≤ address) (hlow : address < lowIdentityLimit) :
    MapsLow (protectKernelPage image memory address) (Function.update pages (blockOf address)
      (readOnlyEntry (roundUpToPage image.textEnd) address memory.toPagingState
        (pages (blockOf address)))) := by
  have hkernelRoot : memory.IsRoot memory.kernelPageDirectory := .inl rfl
  have hregion :
      ∀ place, Isolated.OwnRegion memory.toPagingState memory.kernelPageDirectory place :=
    fun _ ↦ .inl rfl
  obtain ⟨table, htable, hentry, hpresent⟩ :=
    (h.mappingOf_eq_some hkernelRoot (hregion address)).1 (hmaps.page address hpage hlow)
  have hfound : getPageTable address memory = table := by
    have hcases := h.getPageTableFor_cases hkernelRoot (hregion address)
    rw [getPageTable, hcurrent]
    exact h.typed.injective (hcases.resolve_left fun hnone ↦ hnone.2 table htable).2 htable
  generalize hnew : readOnlyEntry (roundUpToPage image.textEnd) address memory.toPagingState
    (pages (blockOf address)) = new
  have hprotect : protectKernelPage image memory address =
      memory.setEntry table (memory.mode.tableIndex address) new := by
    unfold protectKernelPage
    dsimp only
    rw [hfound, hentry, hnew]
  have hnewPresent : new.present = true := by
    rw [← hnew, present_readOnlyEntry, hpresent]
  have hnarrow : memory.mode = .legacy → new.high = 0 := by
    intro hmode
    rw [← hnew, readOnlyEntry, hmode, ← hentry]
    exact Ram.high_entry hmode _ _
  have hisolated := protectKernelPage_isolated image address h hcurrent
  rw [hprotect] at hisolated ⊢
  have hwrites := writes_of_rewrite h hkernelRoot (hregion address) htable
    ⟨Ram.toPagingState_setEntry _ _ _, rfl, hnarrow⟩ hisolated (Ram.pmm_setEntry _ _ _)
  rw [Entry.view, if_pos hnewPresent] at hwrites
  refine ⟨fun other hother hotherLow ↦ ?_, fun other hother hotherLow ↦ ?_⟩
  · rw [Ram.toPagingState_setEntry, hwrites.tables _ other hkernelRoot]
    exact hmaps.table other hother hotherLow
  · rw [Ram.toPagingState_setEntry]
    by_cases hsame : blockOf other = blockOf address
    · have hpath : (memory.setEntry table (memory.mode.tableIndex address) new).mode.path other =
          (memory.setEntry table (memory.mode.tableIndex address) new).mode.path address :=
        (Mode.path_eq_iff _ other address).2 hsame
      rw [mappingOf_congr hpath, hwrites.mapping, hsame, Function.update_self]
    · rw [hwrites.mappings _ other hkernelRoot (hregion other)
        (.inr fun hpath ↦ hsame ((Mode.path_eq_iff _ other address).1 hpath)),
        Function.update_of_ne hsame]
      exact hmaps.page other hother hotherLow

/-- The entries after pages of the image were protected. -/
theorem MapsLow.protectPages (image : KernelImage) (addresses : List UInt32)
    (hdistinct : (addresses.map blockOf).Nodup)
    (hlow : ∀ address ∈ addresses, pageSize ≤ address ∧ address < lowIdentityLimit)
    (haligned : ∀ address ∈ addresses, Aligned address) (hmaps : MapsLow memory pages)
    (h : Isolated memory role) (hcurrent : memory.pageDirectory = memory.kernelPageDirectory) :
    MapsLow (addresses.foldl (protectKernelPage image) memory) fun block ↦
      if block ∈ addresses.map blockOf then
        readOnlyEntry (roundUpToPage image.textEnd) (blockAddress block) memory.toPagingState
          (pages block)
      else pages block := by
  induction addresses generalizing memory pages with
  | nil =>
    exact hmaps
  | cons address rest ih =>
    rw [List.map_cons, List.nodup_cons] at hdistinct
    have hstate : (protectKernelPage image memory address).toPagingState = memory.toPagingState :=
      Ram.toPagingState_setEntry _ _ _
    obtain ⟨hpage, hbelow⟩ := hlow address List.mem_cons_self
    have hrest := ih hdistinct.2 (fun other hother ↦ hlow other (List.mem_cons_of_mem _ hother))
      (fun other hother ↦ haligned other (List.mem_cons_of_mem _ hother))
      (hmaps.protectPage image h hcurrent hpage hbelow)
      (protectKernelPage_isolated image address h hcurrent) (by rw [hstate]; exact hcurrent)
    rw [hstate] at hrest
    rw [List.foldl_cons]
    convert hrest using 2 with block
    have haddress := blockAddress_blockOf (haligned address List.mem_cons_self)
    by_cases hsame : block = blockOf address
    · subst hsame
      rw [if_neg hdistinct.1, Function.update_self, haddress, List.map_cons,
        if_pos List.mem_cons_self]
    · simp only [Function.update_of_ne hsame, List.map_cons, List.mem_cons, hsame, false_or]

/-- The pages that a loop over low memory goes through. -/
theorem map_blockOf_pagesBetween {first last : UInt32} (hlast : Aligned last)
    (hlow : last ≤ lowIdentityLimit) : (pagesBetween first last).map blockOf =
      List.range' (blockOf first) (blockOf last - blockOf first) := by
  rw [aligned_iff] at hlast
  have hlowNat : last.toNat ≤ 4194304 := UInt32.le_iff_toNat_le.1 hlow
  have hlastMod : last.toNat % 4096 = 0 := hlast
  have hcount : (last.toNat - first.toNat + 4095) / 4096 = blockOf last - blockOf first := by
    change _ = last.toNat / 4096 - first.toNat / 4096
    omega
  rw [pagesBetween, hcount, List.map_map, List.range'_eq_map_range]
  refine List.map_congr_left fun index hindex ↦ ?_
  have hlt : index < last.toNat / 4096 - first.toNat / 4096 := List.mem_range.1 hindex
  have hoffset : (pageSize * UInt32.ofNat index).toNat = 4096 * index := by
    change 4096 * (index % 2 ^ 32) % 2 ^ 32 = 4096 * index
    omega
  change (first + pageSize * UInt32.ofNat index).toNat / 4096 = first.toNat / 4096 + index
  rw [UInt32.toNat_add, hoffset]
  omega

theorem mem_pagesBetween_low {first last : UInt32} (hfirst : Aligned first) (hlast : Aligned last)
    (hlow : last ≤ lowIdentityLimit) (hmem : address ∈ pagesBetween first last) :
    first ≤ address ∧ address < last ∧ Aligned address := by
  have hblock := List.mem_map_of_mem (f := blockOf) hmem
  rw [map_blockOf_pagesBetween hlast hlow, List.mem_range'_1] at hblock
  rw [aligned_iff] at hfirst hlast ⊢
  have hfirstMod : first.toNat % 4096 = 0 := hfirst
  have haligned : address.toNat % 4096 = 0 := by
    obtain ⟨index, hindex, rfl⟩ := List.mem_map.1 hmem
    change (first.toNat + 4096 * (UInt32.ofNat index).toNat % 2 ^ 32) % 2 ^ 32 % 4096 = 0
    omega
  have hlower : first.toNat / 4096 ≤ address.toNat / 4096 := hblock.1
  have hupper : address.toNat / 4096 < first.toNat / 4096 +
      (last.toNat / 4096 - first.toNat / 4096) := hblock.2
  refine ⟨UInt32.le_iff_toNat_le.2 ?_, UInt32.lt_iff_toNat_lt.2 ?_, haligned⟩
  · omega
  · omega

theorem aligned_roundUpToPage (address : UInt32) : Aligned (roundUpToPage address) :=
  aligned_and_mask _

theorem toNat_roundUpToPage (hlow : address ≤ lowIdentityLimit) :
    (roundUpToPage address).toNat = (address.toNat + 4095) / 4096 * 4096 := by
  have hlowNat : address.toNat ≤ 4194304 := UInt32.le_iff_toNat_le.1 hlow
  have hsum : (address + pageSize - 1).toNat = address.toNat + 4095 := by
    change (2 ^ 32 - 1 + (address.toNat + 4096) % 2 ^ 32) % 2 ^ 32 = _
    omega
  rw [roundUpToPage, toNat_and_pageAddressMask, hsum]

end Protection

/-! ### The image -/

/-- The kernel's image lies in low memory, above its first page. -/
structure KernelImage.Placed (image : KernelImage) : Prop where
  aligned : Aligned image.textStart
  above : pageSize ≤ image.textStart
  ordered : image.textEnd ≤ image.rodataEnd
  low : image.rodataEnd ≤ lowIdentityLimit

/-- The addresses of the kernel's code and constants, in whole pages. -/
def KernelImage.Covers (image : KernelImage) (address : UInt32) : Prop :=
  image.textStart ≤ address ∧ address < roundUpToPage image.rodataEnd
  deriving Decidable

/-- The entry of a page of low memory after the start. -/
def lowEntry (features : CpuFeatures) (image : KernelImage) (state : PagingState) (block : ℕ) :
    Entry :=
  let identity := identityEntry (if features.pae then .pae else .legacy) features.nx block
  if image.Covers (blockAddress block) then
    readOnlyEntry (roundUpToPage image.textEnd) (blockAddress block) state identity
  else identity

section Image

variable {features : CpuFeatures} {image : KernelImage} {fontAvailable : Bool} {pmm : Pmm}
  {frames : UInt32 → Page} {address : UInt32}

theorem KernelImage.Placed.toNat_roundUp (hplaced : image.Placed) :
    (roundUpToPage image.rodataEnd).toNat = (image.rodataEnd.toNat + 4095) / 4096 * 4096 ∧
      (roundUpToPage image.textEnd).toNat = (image.textEnd.toNat + 4095) / 4096 * 4096 ∧
      (roundUpToPage image.rodataEnd).toNat ≤ 4194304 := by
  have hrodata : image.rodataEnd.toNat ≤ 4194304 := UInt32.le_iff_toNat_le.1 hplaced.low
  have htext : image.textEnd.toNat ≤ image.rodataEnd.toNat :=
    UInt32.le_iff_toNat_le.1 hplaced.ordered
  have htextLow : image.textEnd ≤ lowIdentityLimit :=
    UInt32.le_iff_toNat_le.2 (htext.trans hrodata)
  rw [toNat_roundUpToPage hplaced.low, toNat_roundUpToPage htextLow]
  omega

theorem KernelImage.Placed.mem_pages_iff (hplaced : image.Placed) {block : ℕ}
    (hblock : block < pmmMaxBlocks) :
    block ∈ (pagesBetween image.textStart (roundUpToPage image.rodataEnd)).map blockOf ↔
      image.Covers (blockAddress block) := by
  obtain ⟨-, -, hlow⟩ := hplaced.toNat_roundUp
  have hstart : image.textStart.toNat % 4096 = 0 := aligned_iff.1 hplaced.aligned
  have hend : (roundUpToPage image.rodataEnd).toNat % 4096 = 0 :=
    aligned_iff.1 (aligned_roundUpToPage _)
  have hnat : (blockAddress block).toNat = block * 4096 := toNat_blockAddress hblock
  rw [map_blockOf_pagesBetween (aligned_roundUpToPage _)
    (UInt32.le_iff_toNat_le.2 hlow),
    List.mem_range'_1, KernelImage.Covers, UInt32.le_iff_toNat_le, UInt32.lt_iff_toNat_lt, hnat]
  change image.textStart.toNat / 4096 ≤ block ∧ block < image.textStart.toNat / 4096 +
    ((roundUpToPage image.rodataEnd).toNat / 4096 - image.textStart.toNat / 4096) ↔ _
  omega

/-- The last steps of the start, on the tree that was built. -/
theorem finishKernel_mapsLow {built : Ram} {role : UInt32 → Option Place} {pages : ℕ → Entry}
    (hplaced : image.Placed) (fontAvailable : Bool) (hmaps : MapsLow built pages)
    (h : Isolated built role) (hcurrent : built.pageDirectory = built.kernelPageDirectory) :
    MapsLow (finishKernel image fontAvailable built) fun block ↦
      if image.Covers (blockAddress block) then
        readOnlyEntry (roundUpToPage image.textEnd) (blockAddress block) built.toPagingState
          (pages block)
      else pages block := by
  obtain ⟨-, -, hlow⟩ := hplaced.toNat_roundUp
  obtain ⟨hstate, roleMapped, hmapped⟩ := mapFramebuffer_isolated fontAvailable h hcurrent
  have hkernel : (mapFramebuffer (framebufferPages fontAvailable) built).2.pageDirectory =
      (mapFramebuffer (framebufferPages fontAvailable) built).2.kernelPageDirectory := by
    rw [hstate]
    exact hcurrent
  have hmem : ∀ address ∈ pagesBetween image.textStart (roundUpToPage image.rodataEnd),
      image.textStart ≤ address ∧ address < roundUpToPage image.rodataEnd ∧ Aligned address :=
    fun address ↦ mem_pagesBetween_low hplaced.aligned (aligned_roundUpToPage _)
      (UInt32.le_iff_toNat_le.2 hlow)
  have hdistinct : ((pagesBetween image.textStart (roundUpToPage image.rodataEnd)).map
      blockOf).Nodup := by
    rw [map_blockOf_pagesBetween (aligned_roundUpToPage _)
      (UInt32.le_iff_toNat_le.2 hlow)]
    exact List.nodup_range'
  have hprotected := (mapFramebuffer_mapsLow fontAvailable hmaps h hcurrent).protectPages image _
    hdistinct
    (fun address hmemAddress ↦ ⟨UInt32.le_trans hplaced.above (hmem address hmemAddress).1,
      UInt32.lt_iff_toNat_lt.2
        ((UInt32.lt_iff_toNat_lt.1 (hmem address hmemAddress).2.1).trans_le hlow)⟩)
    (fun address hmemAddress ↦ (hmem address hmemAddress).2.2) hmapped hkernel
  refine ⟨hprotected.table,
    fun address hpage hbelow ↦ (hprotected.page address hpage hbelow).trans ?_⟩
  rw [hstate]
  simp only [hplaced.mem_pages_iff (blockOf_lt address)]

theorem Built.mapsLow {built : Ram} (hbuilt : Built features pmm frames built) :
    MapsLow built (identityEntry (if features.pae then .pae else .legacy) features.nx) := by
  cases hbuilt with
  | legacy hpae htakes =>
    rw [hpae]
    exact legacyBuildKernel_mapsLow rfl htakes
  | pae hpae htakes =>
    rw [hpae]
    exact paeBuildKernel_mapsLow rfl htakes

/-- The entries of low memory after the start. -/
theorem pagingInit_mapsLow (hplaced : image.Placed) (hmapped : ∀ frame, ¬pmm.Mapped frame)
    (hok : (pagingInit features image fontAvailable pmm frames).1 = true) :
    ∃ state : PagingState, state.mode = (if features.pae then .pae else .legacy) ∧
      MapsLow (pagingInit features image fontAvailable pmm frames).2
        (lowEntry features image state) := by
  obtain ⟨built, hbuilt, heq⟩ := pagingInit_eq hok
  obtain ⟨role, h⟩ := hbuilt.isolated hmapped
  obtain ⟨hcurrent, -, hmode⟩ := hbuilt.state
  rw [heq]
  exact ⟨built.toPagingState, hmode,
    finishKernel_mapsLow hplaced fontAvailable hbuilt.mapsLow h hcurrent⟩

/-- Code and constants can be read and not written, and the rest of low memory can be written. -/
structure ImageProtected (image : KernelImage) (memory : Ram) : Prop where
  readOnly : ∀ address, image.Covers address →
    ∃ translation, translate memory.kernelPageDirectory address memory = some translation ∧
      translation.writable = false
  others : ∀ address, 0x1000 ≤ address → address < 0x400000 → ¬image.Covers address →
    ∃ translation, translate memory.kernelPageDirectory address memory = some translation ∧
      translation.writable = true

/-- The rights of a page of low memory are those of its entry. -/
theorem MapsLow.translate {memory : Ram} {pages : ℕ → Entry} (hmaps : MapsLow memory pages)
    (hpage : pageSize ≤ address) (hlow : address < lowIdentityLimit) :
    ∃ translation, EfesOS.Memory.translate memory.kernelPageDirectory address memory =
      some translation ∧ translation.writable = (pages (blockOf address)).writable := by
  obtain ⟨entry, htable, hwritable⟩ := hmaps.table address hpage hlow
  obtain ⟨hdirectory, hdirectoryPresent⟩ := Entry.view_eq_some.1 htable
  obtain ⟨hleaf, hleafPresent⟩ := Entry.view_eq_some.1 (hmaps.page address hpage hlow)
  unfold EfesOS.Memory.translate
  simp only [hdirectory, hdirectoryPresent, hleaf, hleafPresent, Bool.and_self, if_true]
  exact ⟨_, rfl, by rw [hwritable, Bool.true_and]⟩

/-- Protection takes the right to write from the code, and from the constants in the two-level
format. -/
theorem writable_readOnlyEntry (textEnd address : UInt32) (state : PagingState) (entry : Entry) :
    (readOnlyEntry textEnd address state entry).writable =
      (entry.writable && decide (state.mode = .pae ∧ textEnd ≤ address)) := by
  unfold readOnlyEntry Entry.writable
  have hcleared : ~~~pageFlagWritable &&& pageFlagWritable = 0 := rfl
  have hexecutable : pageFlagExecutable &&& pageFlagWritable = 0 := rfl
  have hkept : ~~~pageFlagExecutable &&& pageFlagWritable = pageFlagWritable := rfl
  cases state.mode with
  | legacy => simp [UInt32.and_assoc, hcleared]
  | pae =>
    by_cases hcode : address < textEnd
    · simp [hcode, UInt32.not_le.2 hcode, or_and_right, UInt32.and_assoc, hcleared, hexecutable]
    · simp [hcode, UInt32.not_lt.1 hcode, UInt32.and_assoc, hkept]

/-- An aligned bound that holds of a page holds of its addresses. -/
theorem le_page_iff {bound : UInt32} (hbound : Aligned bound) :
    bound ≤ blockAddress (blockOf address) ↔ bound ≤ address := by
  have hmod : bound.toNat % 4096 = 0 := aligned_iff.1 hbound
  have hnat : (blockAddress (blockOf address)).toNat = address.toNat / 4096 * 4096 :=
    toNat_blockAddress (blockOf_lt address)
  rw [UInt32.le_iff_toNat_le, UInt32.le_iff_toNat_le, hnat]
  omega

theorem KernelImage.Placed.covers_page_iff (hplaced : image.Placed) :
    image.Covers (blockAddress (blockOf address)) ↔ image.Covers address := by
  rw [KernelImage.Covers, KernelImage.Covers, le_page_iff hplaced.aligned, ← UInt32.not_le,
    le_page_iff (aligned_roundUpToPage _), UInt32.not_le]

/-- Which pages of low memory can be written after the start. -/
theorem writable_lowEntry (hplaced : image.Placed) {state : PagingState}
    (hmode : state.mode = if features.pae then .pae else .legacy) :
    (lowEntry features image state (blockOf address)).writable = true ↔
      (image.Covers address → features.pae = true ∧ roundUpToPage image.textEnd ≤ address) := by
  unfold lowEntry
  rw [if_congr hplaced.covers_page_iff rfl rfl]
  by_cases hcovers : image.Covers address
  · rw [if_pos hcovers, writable_readOnlyEntry, writable_identityEntry, Bool.true_and,
      decide_eq_true_eq, le_page_iff (aligned_roundUpToPage _), hmode]
    cases features.pae <;> simp [hcovers]
  · rw [if_neg hcovers, writable_identityEntry]
    simp [hcovers]

/-- Code and constants are protected, and nothing else is, exactly when the two-level format is in
use or no page of constants lies behind the code. -/
theorem kernel_image_protected_iff (hplaced : image.Placed) (hmapped : ∀ frame, ¬pmm.Mapped frame)
    (hinit : (pagingInit features image fontAvailable pmm frames).1 = true) :
    ImageProtected image (pagingInit features image fontAvailable pmm frames).2 ↔
      features.pae = false ∨ roundUpToPage image.rodataEnd ≤ image.textStart ∨
        roundUpToPage image.rodataEnd ≤ roundUpToPage image.textEnd := by
  obtain ⟨state, hmode, hmaps⟩ := pagingInit_mapsLow hplaced hmapped hinit
  have hrange : ∀ address, image.Covers address →
      pageSize ≤ address ∧ address < lowIdentityLimit := by
    intro address hcovers
    refine ⟨UInt32.le_trans hplaced.above hcovers.1, UInt32.lt_iff_toNat_lt.2 ?_⟩
    exact (UInt32.lt_iff_toNat_lt.1 hcovers.2).trans_le hplaced.toNat_roundUp.2.2
  constructor
  · intro hprotected
    by_contra hcondition
    rw [not_or, not_or, Bool.not_eq_false, UInt32.not_le, UInt32.not_le] at hcondition
    obtain ⟨hpae, hstart, hcode⟩ := hcondition
    -- the first page of constants behind the code can be written
    obtain ⟨address, hcovers, hbehind⟩ : ∃ address, image.Covers address ∧
        roundUpToPage image.textEnd ≤ address := by
      by_cases horder : image.textStart ≤ roundUpToPage image.textEnd
      · exact ⟨_, ⟨horder, hcode⟩, UInt32.le_refl _⟩
      · exact ⟨_, ⟨UInt32.le_refl _, hstart⟩, UInt32.le_of_lt (UInt32.not_le.1 horder)⟩
    obtain ⟨hpage, hlow⟩ := hrange address hcovers
    obtain ⟨translation, htranslate, hwritable⟩ := hmaps.translate hpage hlow
    obtain ⟨other, hother, hreadOnly⟩ := hprotected.readOnly address hcovers
    rw [htranslate] at hother
    injection hother with hother
    rw [← hother, hwritable, (writable_lowEntry hplaced hmode).2 fun _ ↦
      ⟨hpae, hbehind⟩] at hreadOnly
    cases hreadOnly
  · intro hcondition
    refine ⟨fun address hcovers ↦ ?_, fun address hpage hlow hcovers ↦ ?_⟩
    · obtain ⟨hpage, hlow⟩ := hrange address hcovers
      obtain ⟨translation, htranslate, hwritable⟩ := hmaps.translate hpage hlow
      refine ⟨translation, htranslate, hwritable.trans (Bool.eq_false_iff.2 fun htrue ↦ ?_)⟩
      obtain ⟨hpae, hbehind⟩ := (writable_lowEntry hplaced hmode).1 htrue hcovers
      rcases hcondition with hlegacy | hempty | hcode
      · rw [hlegacy] at hpae
        cases hpae
      · exact UInt32.not_lt.2 (UInt32.le_trans hempty hcovers.1) hcovers.2
      · exact UInt32.not_lt.2 (UInt32.le_trans hcode hbehind) hcovers.2
    · obtain ⟨translation, htranslate, hwritable⟩ := hmaps.translate hpage hlow
      exact ⟨translation, htranslate, hwritable.trans
        ((writable_lowEntry hplaced hmode).2 fun h ↦ absurd h hcovers)⟩

end Image

/-- An image with one page of code and one of constants behind it. -/
def smallImage : KernelImage := ⟨0x00100000, 0x00100800, 0x00101800⟩

theorem placed_smallImage : smallImage.Placed :=
  ⟨by decide, by decide, by decide, by decide⟩

/-- The words of a frame with given entries. -/
def Mode.page : Mode → (ℕ → Entry) → Page
  | legacy, entries, word => (entries word).low
  | pae, entries, word =>
    if word % 2 = 0 then (entries (word / 2)).low else (entries (word / 2)).high

theorem Mode.page_entry (mode : Mode) (page : Page) : mode.page (mode.entry page) = page := by
  funext word
  cases mode with
  | legacy => rfl
  | pae =>
    simp only [Mode.page, Mode.entry]
    split_ifs
    · rw [show 2 * (word / 2) = word by omega]
    · rw [show 2 * (word / 2) + 1 = word by omega]

/-- Memory is known when its entries are. -/
theorem Ram.eq_of_entry {memory built : Ram} {entries : UInt32 → ℕ → Entry}
    (hkeeps : built.toPagingState = memory.toPagingState ∧ built.pmm = memory.pmm)
    (hentry : ∀ frame index, built.entry frame index = entries frame index) :
    built = { memory with
      frames := fun frame ↦ memory.mode.page (entries frame), actions := built.actions } := by
  have hframes : built.frames = fun frame ↦ memory.mode.page (entries frame) := by
    funext frame
    rw [← funext (hentry frame), ← hkeeps.1]
    exact (Mode.page_entry _ _).symm
  rw [← hframes, ← hkeeps.1, ← hkeeps.2]

/-- The small machine where `paging_init` leaves it. -/
def smallStart (features : CpuFeatures) : Ram :=
  let below := fun pmm ↦ (pmmAllocBlockBelow lowIdentityLimit pmm).2
  let zeros : UInt32 → Page := fun _ _ ↦ 0
  if features.pae then
    let start :=
      (unpaged .pae features.nx (below (below (below (below smallPmm)))) zeros).startingFrom
        0x003F0000
    enablePaging (protectKernelReadOnly smallImage { start with
      frames := fun frame ↦
        Mode.pae.page (paeEntry 0x003F0000 0x003F1000 0x003F2000 0x003F3000 start frame)
      actions := (paeBuildKernel 0x003F0000 0x003F1000 0x003F2000 0x003F3000 start).actions })
  else
    let start := (unpaged .legacy false (below (below smallPmm)) zeros).startingFrom 0x003F0000
    enablePaging (protectKernelReadOnly smallImage { start with
      frames := fun frame ↦ Mode.legacy.page (legacyEntry 0x003F0000 0x003F1000 start frame)
      actions := (legacyBuildKernel 0x003F0000 0x003F1000 start).actions })

theorem pagingInit_small (features : CpuFeatures) :
    pagingInit features smallImage false smallPmm (fun _ _ ↦ 0) = (true, smallStart features) := by
  have hfirst : (pmmAllocBlockBelow lowIdentityLimit smallPmm).1 = 0x003F0000 := by decide +kernel
  have hsecond : (pmmAllocBlockBelow lowIdentityLimit
      (pmmAllocBlockBelow lowIdentityLimit smallPmm).2).1 = 0x003F1000 := by decide +kernel
  have hthird : (pmmAllocBlockBelow lowIdentityLimit (pmmAllocBlockBelow lowIdentityLimit
      (pmmAllocBlockBelow lowIdentityLimit smallPmm).2).2).1 = 0x003F2000 := by decide +kernel
  have hfourth : (pmmAllocBlockBelow lowIdentityLimit (pmmAllocBlockBelow lowIdentityLimit
      (pmmAllocBlockBelow lowIdentityLimit
        (pmmAllocBlockBelow lowIdentityLimit smallPmm).2).2).2).1 = 0x003F3000 := by decide +kernel
  unfold pagingInit smallStart
  cases features.pae with
  | true =>
    simp only [if_true, paeInit, hfirst, hsecond, hthird, hfourth]
    rw [if_neg (by decide)]
    simp only [framebufferPages, Bool.false_eq_true, if_false, mapFramebuffer]
    exact congrArg (fun built ↦ (true, enablePaging (protectKernelReadOnly smallImage built)))
      (Ram.eq_of_entry (paeBuildKernel_keeps _ _ _ _ _) (entry_paeBuildKernel _ _ _ _ _))
  | false =>
    simp only [Bool.false_eq_true, if_false, legacyInit, hfirst, hsecond]
    simp only [framebufferPages, Bool.false_eq_true, if_false, mapFramebuffer]
    exact congrArg (fun built ↦ (true, enablePaging (protectKernelReadOnly smallImage built)))
      (Ram.eq_of_entry (legacyBuildKernel_keeps _ _ _) (entry_legacyBuildKernel _ _ _))

theorem pagingInit_small_ok (features : CpuFeatures) :
    (pagingInit features smallImage false smallPmm fun _ _ ↦ 0).1 = true := by
  rw [pagingInit_small]

theorem not_mapped_smallPmm (frame : UInt32) : ¬smallPmm.Mapped frame :=
  fun hmapped ↦ Bool.false_ne_true hmapped.2.1

/-- In the two-level format both pages of the small image are protected. -/
theorem kernel_image_protected_small : ∃ pmm, pmmInit smallMachine 0x10000 0x80000 = some pmm ∧
    ImageProtected smallImage (pagingInit ⟨false, false⟩ smallImage false pmm fun _ _ ↦ 0).2 :=
  ⟨smallPmm, pmmInit_smallMachine, (kernel_image_protected_iff placed_smallImage
    not_mapped_smallPmm (pagingInit_small_ok _)).2 (.inl rfl)⟩

/-- In the three-level format the constants of the small image can be written. -/
theorem small_constants_writable : ∃ pmm, pmmInit smallMachine 0x10000 0x80000 = some pmm ∧
    (pagingInit ⟨true, true⟩ smallImage false pmm fun _ _ ↦ 0).1 = true ∧
    smallImage.Covers 0x00101000 ∧
    ∃ translation, translate
        (pagingInit ⟨true, true⟩ smallImage false pmm fun _ _ ↦ 0).2.kernelPageDirectory 0x00101000
        (pagingInit ⟨true, true⟩ smallImage false pmm fun _ _ ↦ 0).2 = some translation ∧
      translation.writable = true := by
  have hwritable : ((translate 0x003F0000 0x00101000 (smallStart ⟨true, true⟩)).any
    Translation.writable) = true := by decide +kernel
  refine ⟨smallPmm, pmmInit_smallMachine, ?_⟩
  rw [pagingInit_small]
  exact ⟨rfl, by decide, (Option.any_eq_true ..).1 hwritable⟩

end EfesOS.Memory
