import EfesOS.Process.ElfImages

/-!
# The ELF loader is safe on every file

Whatever bytes and whatever size it is given, the parser reads inside the image and wraps nowhere,
and the loader besides never overruns `mapped_pages` and stores only to pages that it has mapped:
`elf_parsing_safe`. The one way in which the loader can stop is the panic of its cleanup.
-/

set_option autoImplicit false

namespace EfesOS.Process.Elf

open EfesOS.Foundation EfesOS.Foundation.Checked EfesOS.Memory

variable {allowed : Fault → Prop} {data : Bytes} {size : UInt32}

/-! ### Stores -/

theorem yields_storeEach {base : UInt32} {value : UInt32 → Checked UInt8} (indices : List ℕ)
    (hvalue : ∀ index ∈ indices, Yields allowed (value (UInt32.ofNat index)) fun _ ↦ True)
    (hfits : ∀ index ∈ indices, base.toNat + index < 2 ^ 32) (state : LoadState)
    (hmapped : ∀ index ∈ indices, pageStart (base + UInt32.ofNat index) ∈ state.mappedPages) :
    Yields allowed (storeEach base value indices state)
      fun after ↦ after.mappedPages = state.mappedPages := by
  induction indices generalizing state with
  | nil => exact yields_pure.2 rfl
  | cons index rest ih =>
    have hindex : (UInt32.ofNat index).toNat = index := by
      have hfitsHere := hfits index List.mem_cons_self
      rw [UInt32.toNat_ofNat']
      omega
    have hpage := hmapped index List.mem_cons_self
    rw [storeEach, add_eq (by rw [hindex]; exact hfits index List.mem_cons_self), ok_bind]
    refine (hvalue index List.mem_cons_self).bind fun byte _ ↦ ?_
    rw [storeUser, if_pos hpage, ok_bind]
    exact ih (fun other hother ↦ hvalue other (List.mem_cons_of_mem index hother))
      (fun other hother ↦ hfits other (List.mem_cons_of_mem index hother)) _
      fun other hother ↦ hmapped other (List.mem_cons_of_mem index hother)

theorem pageStart_mem_pagesBetween {first last address : UInt32} (hfirst : Aligned first)
    (hroom : last.toNat ≤ 2 ^ 32 - 4096) (habove : first.toNat ≤ address.toNat)
    (hbelow : address.toNat < last.toNat) : pageStart address ∈ pagesBetween first last := by
  have hmod : first.toNat % 4096 = 0 := aligned_iff.1 hfirst
  have hpage := toNat_pageStart address
  refine (mem_pagesBetween hfirst hroom).2 ⟨?_, ?_, aligned_pageStart address⟩
  · rw [UInt32.le_iff_toNat_le]
    omega
  · rw [UInt32.lt_iff_toNat_lt]
    omega

/-- An address in a page. -/
theorem pageStart_add {page : UInt32} (haligned : Aligned page) {offset : ℕ}
    (hoffset : offset < 4096) : pageStart (page + UInt32.ofNat offset) = page := by
  have hmod : page.toNat % 4096 = 0 := aligned_iff.1 haligned
  have hpage := page.toNat_lt
  have hnat : (UInt32.ofNat offset).toNat = offset := by
    rw [UInt32.toNat_ofNat']
    omega
  refine UInt32.toNat_inj.1 ?_
  rw [toNat_pageStart, toNat_add_of_lt (by omega), hnat]
  omega

variable {state : LoadState}

theorem yields_clearUserPage {page : UInt32} (haligned : Aligned page)
    (hmapped : page ∈ state.mappedPages) :
    Yields allowed (clearUserPage page state)
      fun after ↦ after.mappedPages = state.mappedPages := by
  have hmod : page.toNat % 4096 = 0 := aligned_iff.1 haligned
  have hpage := page.toNat_lt
  have hcleared : ∀ count ≤ 4096, Yields allowed
      (storeEach page (fun _ ↦ pure 0) (List.range count) state)
      fun after ↦ after.mappedPages = state.mappedPages := by
    intro count hcount
    refine yields_storeEach _ (fun _ _ ↦ yields_pure.2 trivial) (fun index hindex ↦ ?_) state
      fun index hindex ↦ ?_
    · have hlt := List.mem_range.1 hindex
      omega
    · have hlt := List.mem_range.1 hindex
      rw [pageStart_add haligned (by omega)]
      exact hmapped
  exact hcleared 4096 le_rfl

theorem yields_fillSegment {header : ProgramHeader} {place : Placement} {loadBias : UInt32}
    (hplace : PlacedAt loadBias header place) (hadmitted : Admitted size header)
    (hmapped : ∀ page ∈ pagesBetween place.first place.last,
      page ∈ state.mappedPages) :
    Yields allowed (fillSegment data size place.mappedAddress place.last header state)
      fun after ↦ after.mappedPages = state.mappedPages := by
  obtain ⟨haddress, hfirst, hlast, haligned, habove, hbelow, -⟩ := hplace
  obtain ⟨hcontents, hinside, -, -⟩ := hadmitted
  have hfirstNat : place.first.toNat = place.mappedAddress.toNat / 4096 * 4096 := by
    rw [hfirst, toNat_pageStart]
  have hfirstAligned : Aligned place.first := hfirst ▸ aligned_pageStart _
  -- Both loops stay between the address of the segment and the end of its last page.
  have hpages : ∀ (base : UInt32) (index : ℕ), place.mappedAddress.toNat ≤ base.toNat →
      base.toNat + index < place.last.toNat →
        pageStart (base + UInt32.ofNat index) ∈ state.mappedPages := by
    intro base index hbase hend
    have hindex : (UInt32.ofNat index).toNat = index := by
      rw [UInt32.toNat_ofNat']
      omega
    have hsum : (base + UInt32.ofNat index).toNat = base.toNat + index := by
      rw [toNat_add_of_lt (by omega), hindex]
    exact hmapped _ (pageStart_mem_pagesBetween hfirstAligned (by omega) (by omega) (by omega))
  refine (yields_storeEach (List.range header.fileSize.toNat) (fun index hindex ↦ ?_)
    (fun index hindex ↦ ?_) state fun index hindex ↦ ?_).bind fun copied hcopied ↦ ?_
  · have hlt := List.mem_range.1 hindex
    have hnat : (UInt32.ofNat index).toNat = index := by
      rw [UInt32.toNat_ofNat']
      omega
    rw [readByte_eq (by omega)]
    exact yields_ok.2 trivial
  · have hlt := List.mem_range.1 hindex
    omega
  · have hlt := List.mem_range.1 hindex
    exact hpages place.mappedAddress index le_rfl (by omega)
  · have hend : (place.mappedAddress + header.fileSize).toNat =
        place.mappedAddress.toNat + header.fileSize.toNat := toNat_add_of_lt (by omega)
    have hle : place.mappedAddress + header.fileSize ≤ place.last :=
      UInt32.le_iff_toNat_le.2 (by omega)
    have hrest := UInt32.toNat_sub_of_le _ _ hle
    rw [add_eq (by omega), ok_bind, sub_eq hle, ok_bind]
    refine (yields_storeEach _ (fun _ _ ↦ yields_pure.2 trivial) (fun index hindex ↦ ?_) copied
      fun index hindex ↦ ?_).mono fun after hafter ↦ hafter.trans hcopied
    · have hlt := List.mem_range.1 hindex
      omega
    · have hlt := List.mem_range.1 hindex
      rw [hcopied]
      exact hpages _ index (by omega) (by omega)

/-! ### Pages -/

/-- The array of mapped pages is not overrun. -/
def LoadState.Fits (state : LoadState) : Prop := state.mappedPages.length ≤ elfMaxImagePages

theorem yields_failed {memory : Ram} {going : LoadState → Prop} :
    Yields allowed (pure (.failed memory) : Checked Progress) fun result ↦
      ∀ after, result = .going after → going after :=
  yields_pure.2 (by simp)

theorem yields_going {going : LoadState → Prop} :
    Yields allowed (pure (.going state) : Checked Progress)
      (fun result ↦ ∀ after, result = .going after → going after) ↔ going state :=
  yields_pure.trans ⟨fun h ↦ h state rfl, fun hgoing _ hafter ↦ Progress.going.inj hafter ▸ hgoing⟩

section Cleanup

variable (hcleanup : allowed (.panic "ELF mapping cleanup failed."))

include hcleanup

theorem yields_releasePages (pages : List UInt32) (memory : Ram) :
    Yields allowed (releasePages pages memory) fun _ ↦ True := by
  induction pages generalizing memory with
  | nil => exact yields_pure.2 trivial
  | cons page rest ih => exact yields_ite.2 ⟨fun _ ↦ yields_throw.2 hcleanup, fun _ ↦ ih _⟩

theorem yields_giveUp (state : LoadState) {going : LoadState → Prop} :
    Yields allowed (giveUp state) fun result ↦ ∀ after, result = .going after → going after := by
  rw [giveUp, yields_bind]
  exact (yields_releasePages hcleanup _ _).mono fun _ _ ↦ yields_failed

variable {state : LoadState}

theorem yields_mapPages {pages : List UInt32} (haligned : ∀ page ∈ pages, Aligned page)
    (hfits : state.Fits) :
    Yields allowed (mapPages pages state) fun result ↦ ∀ after, result = .going after →
      after.mappedPages = state.mappedPages ++ pages ∧ after.Fits := by
  induction pages generalizing state with
  | nil => exact yields_going.2 ⟨(List.append_nil _).symm, hfits⟩
  | cons page rest ih =>
    refine yields_ite.2 ⟨fun _ ↦ yields_giveUp hcleanup state, fun hchecked ↦ ?_⟩
    have hroom : state.mappedPages.length < elfMaxImagePages :=
      Nat.lt_of_le_of_ne hfits (not_or.1 hchecked).1
    generalize mapFresh page state.memory = fresh
    refine yields_ite.2 ⟨fun _ ↦ ?_, fun _ ↦ yields_giveUp hcleanup _⟩
    rw [yields_bind]
    refine yields_push.2 ⟨fun _ ↦ ?_, fun hfull ↦ absurd hroom hfull⟩
    refine (yields_clearUserPage (haligned page List.mem_cons_self)
      (List.mem_append_right _ (List.mem_singleton_self page))).bind fun cleared hcleared ↦ ?_
    have hclearedFits : cleared.Fits := by
      rw [LoadState.Fits, hcleared, List.length_append]
      exact hroom
    refine (ih (fun other hother ↦ haligned other (List.mem_cons_of_mem page hother))
      hclearedFits).mono fun result hresult after hgoing ↦ ?_
    obtain ⟨hpages, hafter⟩ := hresult after hgoing
    rw [hpages, hcleared, List.append_assoc, List.singleton_append]
    exact ⟨rfl, hafter⟩

theorem yields_protectPages (flags : UInt32) (pages : List UInt32) (state : LoadState) :
    Yields allowed (protectPages flags pages state) fun result ↦
      ∀ after, result = .going after → after.mappedPages = state.mappedPages := by
  induction pages generalizing state with
  | nil => exact yields_going.2 rfl
  | cons page rest ih =>
    generalize pagingProtectPage page flags state.memory = outcome
    exact yields_ite.2 ⟨fun _ ↦ ih _, fun _ ↦ yields_giveUp hcleanup _⟩

/-! ### Segments and images -/

variable {loadBias : UInt32}

theorem yields_loadSegment {header : ProgramHeader} {place : Placement}
    (hplace : PlacedAt loadBias header place) (hadmitted : Admitted size header)
    (hfits : state.Fits) :
    Yields allowed (loadSegment data size header place state) fun result ↦
      ∀ after, result = .going after →
        after.mappedPages = state.mappedPages ++ pagesBetween place.first place.last ∧
          after.Fits := by
  have hroom : place.last.toNat ≤ 2 ^ 32 - 4096 := hplace.below.trans (by decide)
  have hfirst : Aligned place.first := hplace.first ▸ aligned_pageStart _
  rw [loadSegment, visitPages_eq hroom, ok_bind]
  refine (yields_mapPages hcleanup (fun page hpage ↦ ((mem_pagesBetween hfirst hroom).1 hpage).2.2)
    hfits).bind fun progress hprogress ↦ ?_
  cases progress with
  | failed memory => exact yields_failed
  | going mapped =>
    obtain ⟨hmapped, hmappedFits⟩ := hprogress mapped rfl
    refine (yields_fillSegment hplace hadmitted fun page hpage ↦ ?_).bind fun filled hfilled ↦ ?_
    · rw [hmapped]
      exact List.mem_append_right _ hpage
    · refine (yields_protectPages hcleanup _ _ filled).mono fun result hresult after hgoing ↦ ?_
      have hafter := hresult after hgoing
      rw [LoadState.Fits, hafter, hfilled]
      exact ⟨hmapped, hmappedFits⟩

theorem yields_loadHeaders {imageEntry : UInt32} (haccepted : Accepted data size imageEntry)
    (hbias : loadBias.toNat < 0x30000000) {indices : List ℕ}
    (hindices : ∀ index ∈ indices, index < data.phnum.toNat) (extent : Extent)
    (hfits : state.Fits) :
    Yields allowed (loadHeaders data size data.phoff loadBias indices extent state)
      fun _ ↦ True := by
  induction indices generalizing extent state with
  | nil => exact yields_pure.2 trivial
  | cons index rest ih =>
    have hindex := hindices index List.mem_cons_self
    have hinside := haccepted.table.header hindex
    have hrest : ∀ (extent : Extent) {state : LoadState}, state.Fits → Yields allowed
        (loadHeaders data size data.phoff loadBias rest extent state) fun _ ↦ True :=
      fun extent _ ↦ ih
        (fun other hother ↦ hindices other (List.mem_cons_of_mem index hother)) extent
    obtain ⟨offset, hoffset, hoffsetNat⟩ := exists_headerOffset hinside
    rw [loadHeaders, hoffset, ok_bind, readField_header hinside hoffsetNat (by decide), ok_bind]
    refine yields_ite.2 ⟨fun _ ↦ hrest extent hfits, fun hload ↦ ?_⟩
    have hadmitted := haccepted.segments index hindex (not_not.1 hload)
    rw [readProgramHeader_eq hinside hoffsetNat, ok_bind]
    refine yields_ite.2 ⟨fun _ ↦ hrest extent hfits, fun _ ↦ ?_⟩
    refine (yields_placeSegment _ hbias).bind fun placement hplacement ↦ ?_
    cases placement with
    | none =>
      rw [yields_bind]
      have hgiveUp : Yields allowed (giveUp state) fun result ↦
        ∀ after, result = .going after → True := yields_giveUp hcleanup state
      exact hgiveUp.mono fun _ _ ↦ yields_pure.2 trivial
    | some place =>
      refine (yields_loadSegment hcleanup (hplacement place rfl) hadmitted hfits).bind
        fun progress hprogress ↦ ?_
      cases progress with
      | failed memory => exact yields_pure.2 trivial
      | going loaded => exact hrest _ (hprogress loaded rfl).2

theorem yields_finishLoad (imageEntry : UInt32) (hbias : loadBias.toNat < 0x30000000)
    (extent : Extent) (state : LoadState) (random : UInt32) :
    Yields allowed (finishLoad imageEntry loadBias extent state random) fun _ ↦ True := by
  have hmost : (0xFFFFFFFF : UInt32).toNat = 0xFFFFFFFF := rfl
  have hle : loadBias ≤ 0xFFFFFFFF := UInt32.le_iff_toNat_le.2 (by omega)
  rw [finishLoad, sub_eq hle, ok_bind]
  refine yields_ite.2 ⟨fun _ ↦ ?_, fun hhighest ↦ ?_⟩
  · rw [yields_bind]
    exact (yields_releasePages hcleanup _ _).mono fun _ _ ↦ yields_pure.2 trivial
  · rw [UInt32.not_lt, UInt32.le_iff_toNat_le, UInt32.toNat_sub_of_le _ _ hle, hmost] at hhighest
    rw [add_eq (by omega), ok_bind]
    exact yields_pure.2 trivial

theorem yields_loadValid {imageEntry : UInt32} (haccepted : Accepted data size imageEntry)
    (source : BiasSource) (memory : Ram) (random : UInt32) :
    Yields allowed (loadValid source data size imageEntry memory random) fun _ ↦ True := by
  rw [loadValid, readU16_type data haccepted.whole, ok_bind, readU32_phoff data haccepted.whole,
    ok_bind, readU16_phnum data haccepted.whole, ok_bind]
  refine (yields_imageBounds haccepted.table _).bind fun bounds _ ↦ ?_
  cases bounds with
  | none => exact yields_pure.2 trivial
  | some bounds =>
    refine (yields_chooseBias source _ _ _ memory random).bind fun choice hchoice ↦ ?_
    obtain ⟨bias, state⟩ := choice
    cases bias with
    | none => exact yields_pure.2 trivial
    | some loadBias =>
      have hbias := (hchoice loadBias rfl).lt
      refine (yields_loadHeaders hcleanup haccepted hbias
        (fun index hindex ↦ List.mem_range.1 hindex) _ (Nat.zero_le _)).bind fun outcome _ ↦ ?_
      obtain ⟨extent, progress⟩ := outcome
      cases progress with
      | failed memory => exact yields_pure.2 trivial
      | going loaded => exact yields_finishLoad hcleanup imageEntry hbias extent loaded state

theorem yields_elfLoadImage (source : BiasSource) (image : Option Bytes) (size : UInt32)
    (memory : Ram) (random : UInt32) :
    Yields allowed (elfLoadImage source image size memory random) fun _ ↦ True := by
  refine (yields_elfValidateImage image size).bind fun result hresult ↦ ?_
  cases result with
  | none => cases image <;> exact yields_pure.2 trivial
  | some imageEntry =>
    obtain ⟨data, rfl, haccepted⟩ := hresult imageEntry rfl
    exact yields_loadValid hcleanup haccepted source memory random

end Cleanup

/-- For every file, size and state of memory, the parser returns, and the loader returns or stops in
the panic of its cleanup: no byte behind the end of the image is read, no sum or product of the
file's values wraps, no page is recorded behind the end of the array and no byte is stored to a page
that the call did not map. -/
theorem elf_parsing_safe (image : Option Bytes) (size : UInt32) :
    (∃ result, elfValidateImage image size = .ok result) ∧
      ∀ source memory random fault, elfLoadImage source image size memory random = .error fault →
        fault = .panic "ELF mapping cleanup failed." := by
  constructor
  · obtain ⟨result, hresult, -⟩ :=
      (yields_elfValidateImage image size).exists_ok fun _ ↦ (not_false : ¬False)
    exact ⟨result, hresult⟩
  · intro source memory random fault hfault
    have hyields : Yields (fun fault ↦ fault = .panic "ELF mapping cleanup failed.")
        (elfLoadImage source image size memory random) fun _ ↦ True :=
      yields_elfLoadImage (by rfl) source image size memory random
    exact hyields.error fault hfault

end EfesOS.Process.Elf
