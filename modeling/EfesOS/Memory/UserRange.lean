import EfesOS.Memory.Histories

/-!
# Ranges of user addresses

`paging_validate_user_range` walks from page to page with a 32-bit cursor. `checkPages` is that
loop, with the pages it looked at, and `checkPages_eq` says what it does when the cursor cannot pass
the top of the address space: it stops, at the first page that is refused or after the last.
`user_range_validation_exact` is the result: for every state of the tables a range is accepted
exactly when a process can reach every page it touches, and no page is looked at twice.
-/

set_option autoImplicit false

namespace EfesOS.Memory

/-! ### Loops over pages -/

variable {first last : UInt32}

/-- The cursor of a loop over pages does not wrap below the last page of the address space. -/
theorem toNat_cursor (hroom : last.toNat ≤ 2 ^ 32 - 4096) {index : ℕ}
    (hindex : index < (last.toNat - first.toNat + 4095) / 4096) :
    (first + pageSize * UInt32.ofNat index).toNat = first.toNat + 4096 * index := by
  have hoffset : (pageSize * UInt32.ofNat index).toNat = 4096 * index := by
    change 4096 * (index % 2 ^ 32) % 2 ^ 32 = 4096 * index
    omega
  rw [UInt32.toNat_add, hoffset]
  omega

theorem pagesBetween_of_lt (hlt : first < last) (hroom : last.toNat ≤ 2 ^ 32 - 4096) :
    pagesBetween first last = first :: pagesBetween (first + pageSize) last := by
  have hltNat : first.toNat < last.toNat := UInt32.lt_iff_toNat_lt.1 hlt
  have hnext : (first + pageSize).toNat = first.toNat + 4096 := by
    change (first.toNat + 4096) % 2 ^ 32 = _
    omega
  have hcount : (last.toNat - first.toNat + 4095) / 4096 =
      (last.toNat - (first + pageSize).toNat + 4095) / 4096 + 1 := by
    omega
  have hhead : first + pageSize * UInt32.ofNat 0 = first := by
    rw [show UInt32.ofNat 0 = 0 from rfl, UInt32.mul_zero, UInt32.add_zero]
  have hstep : ∀ index, first + pageSize * UInt32.ofNat (index + 1) =
      first + pageSize + pageSize * UInt32.ofNat index := by
    intro index
    rw [UInt32.ofNat_add, UInt32.mul_add, show UInt32.ofNat 1 = 1 from rfl, UInt32.mul_one,
      UInt32.add_assoc, UInt32.add_comm pageSize]
  rw [pagesBetween, hcount, List.range_succ_eq_map, List.map_cons, List.map_map,
    pagesBetween, hhead]
  exact congrArg (List.cons first) (List.map_congr_left fun index _ ↦ hstep index)

theorem pagesBetween_of_le (hle : last ≤ first) :
    pagesBetween first last = [] := by
  have hleNat : last.toNat ≤ first.toNat := UInt32.le_iff_toNat_le.1 hle
  have hcount : (last.toNat - first.toNat + 4095) / 4096 = 0 := by omega
  rw [pagesBetween, hcount]
  rfl

variable {page : UInt32}

/-- The pages of a loop that starts at a page boundary. -/
theorem mem_pagesBetween (hfirst : Aligned first) (hroom : last.toNat ≤ 2 ^ 32 - 4096) :
    page ∈ pagesBetween first last ↔ first ≤ page ∧ page < last ∧ Aligned page := by
  have hfirstMod : first.toNat % 4096 = 0 := aligned_iff.1 hfirst
  rw [UInt32.le_iff_toNat_le, UInt32.lt_iff_toNat_lt, aligned_iff, pagesBetween, List.mem_map]
  change _ ↔ _ ∧ _ ∧ page.toNat % 4096 = 0
  constructor
  · rintro ⟨index, hindex, rfl⟩
    rw [List.mem_range] at hindex
    rw [toNat_cursor hroom hindex]
    omega
  · rintro ⟨hle, hlt, haligned⟩
    have hindex : (page.toNat - first.toNat) / 4096 < (last.toNat - first.toNat + 4095) / 4096 := by
      omega
    refine ⟨(page.toNat - first.toNat) / 4096, List.mem_range.2 hindex, UInt32.toNat_inj.1 ?_⟩
    rw [toNat_cursor hroom hindex]
    omega

theorem nodup_pagesBetween (hroom : last.toNat ≤ 2 ^ 32 - 4096) :
    (pagesBetween first last).Nodup := by
  refine List.nodup_range.map_on fun left hleft right hright heq ↦ ?_
  rw [List.mem_range] at hleft hright
  have hequal := congrArg UInt32.toNat heq
  rw [toNat_cursor hroom hleft, toNat_cursor hroom hright] at hequal
  omega

/-! ### The walk -/

/-- The loop of `paging_validate_user_range` from a cursor on, and the pages that it looked at.
There is no result when it is still going after so many turns. -/
def checkPages (writable : Bool) (memory : Ram) (last : UInt32) :
    ℕ → UInt32 → Option (Bool × List UInt32)
  | 0, _ => none
  | turns + 1, page =>
    if page < last then
      if pageIsUserAccessible writable memory page then
        (checkPages writable memory last turns (page + pageSize)).map fun rest ↦
          (rest.1, page :: rest.2)
      else some (false, [page])
    else some (true, [])

/-- `paging_validate_user_range` with its loop, and the pages that it looked at. -/
def walkUserRange (turns : ℕ) (address length : UInt32) (writable : Bool) (memory : Ram) :
    Option (Bool × List UInt32) :=
  if length = 0 then some (true, [])
  else if memory.pageDirectory = 0 ∨ address < pageSize ∨ userAddressLimit ≤ address ∨
      userAddressLimit - address < length then some (false, [])
  else checkPages writable memory (address + length) turns (address &&& pageAddressMask)

/-- The pages of a list up to the first that is refused, with that one. -/
def visited (accepts : UInt32 → Bool) : List UInt32 → List UInt32
  | [] => []
  | page :: rest => if accepts page then page :: visited accepts rest else [page]

theorem visited_sublist (accepts : UInt32 → Bool) (pages : List UInt32) :
    (visited accepts pages).Sublist pages := by
  induction pages with
  | nil => exact List.Sublist.slnil
  | cons page rest ih =>
    rw [visited]
    split_ifs with haccepts
    · exact ih.cons_cons page
    · exact (List.nil_sublist rest).cons_cons page

theorem visited_of_all {accepts : UInt32 → Bool} {pages : List UInt32}
    (hall : pages.all accepts = true) : visited accepts pages = pages := by
  induction pages with
  | nil => rfl
  | cons page rest ih =>
    rw [List.all_cons, Bool.and_eq_true] at hall
    rw [visited, if_pos hall.1, ih hall.2]

theorem accepted_of_mem_dropLast {accepts : UInt32 → Bool} {pages : List UInt32}
    (hpage : page ∈ (visited accepts pages).dropLast) : accepts page = true := by
  induction pages with
  | nil => exact absurd hpage List.not_mem_nil
  | cons first rest ih =>
    rw [visited] at hpage
    split_ifs at hpage with haccepts
    · cases hrest : visited accepts rest with
      | nil =>
        rw [hrest] at hpage
        exact absurd hpage List.not_mem_nil
      | cons second others =>
        rw [hrest, List.dropLast_cons_cons, List.mem_cons] at hpage
        rcases hpage with rfl | hlater
        · exact haccepts
        · exact ih (by rw [hrest]; exact hlater)
    · exact absurd hpage List.not_mem_nil

/-- The loop stops, and its answer is that of all pages. -/
theorem checkPages_eq (writable : Bool) (memory : Ram) (hroom : last.toNat ≤ 2 ^ 32 - 4096)
    {turns : ℕ} (hturns : (pagesBetween page last).length < turns) :
    checkPages writable memory last turns page =
      some ((pagesBetween page last).all (pageIsUserAccessible writable memory),
        visited (pageIsUserAccessible writable memory) (pagesBetween page last)) := by
  induction turns generalizing page with
  | zero => exact absurd hturns (Nat.not_lt_zero _)
  | succ turns ih =>
    rw [checkPages]
    by_cases hlt : page < last
    · rw [if_pos hlt]
      rw [pagesBetween_of_lt hlt hroom] at hturns ⊢
      rw [List.all_cons, visited]
      cases haccess : pageIsUserAccessible writable memory page with
      | false => rfl
      | true =>
        rw [if_pos rfl, ih (by simpa using hturns)]
        rfl
    · rw [if_neg hlt, pagesBetween_of_le (UInt32.not_lt.1 hlt)]
      rfl

/-! ### Exactness -/

/-- Some byte of a range is on a page. -/
def Touches (address length page : UInt32) : Prop :=
  ∃ offset < length.toNat, page.toNat = (address.toNat + offset) / 4096 * 4096

/-- A range of bytes that does not wrap, above the first page and below the kernel's half. -/
def InUserRange (address length : UInt32) : Prop :=
  0x1000 ≤ address.toNat ∧ address.toNat + length.toNat ≤ 0xC0000000

/-- A process can reach a page, and write to it where that is asked for. -/
def Grants (writable : Bool) (memory : Ram) (page : UInt32) : Prop :=
  UserAccessible memory.pageDirectory page memory ∧
    (writable = true → (leafOf memory.pageDirectory page memory).writable = true)

theorem pageIsUserAccessible_iff (writable : Bool) (memory : Ram) (page : UInt32) :
    pageIsUserAccessible writable memory page = true ↔ Grants writable memory page := by
  unfold pageIsUserAccessible Grants UserAccessible
  rw [currentDirectoryEntry_eq, currentEntry_eq]
  cases writable <;> simp [and_assoc]

/-- No page is mapped where there is no directory. -/
theorem not_grants_of_no_directory {writable : Bool} {memory : Ram}
    (hnone : memory.pageDirectory = 0) : ¬Grants writable memory page := by
  rintro ⟨⟨hpresent, -⟩, -⟩
  have hzero : directoryFor memory.pageDirectory page memory = 0 := by
    unfold directoryFor paePageDirectoryFor
    rw [hnone]
    split <;> simp
  have habsent : directoryEntryOf memory.pageDirectory page memory = .absent := if_pos hzero
  rw [habsent] at hpresent
  exact absurd hpresent (by decide)

/-- The checks before the loop. -/
theorem inUserRange_iff {address length : UInt32} (hlength : length ≠ 0) :
    InUserRange address length ↔
      ¬(address < pageSize ∨ userAddressLimit ≤ address ∨ userAddressLimit - address < length) := by
  have hpositive : length.toNat ≠ 0 := fun hzero ↦ hlength (UInt32.toNat_inj.1 hzero)
  have hlimit : userAddressLimit.toNat = 3221225472 := rfl
  have hpage : pageSize.toNat = 4096 := rfl
  rw [InUserRange, UInt32.lt_iff_toNat_lt, UInt32.le_iff_toNat_le, UInt32.lt_iff_toNat_lt,
    hlimit, hpage]
  by_cases hbelow : address.toNat < 3221225472
  · have hrest : (userAddressLimit - address).toNat = 3221225472 - address.toNat := by
      rw [UInt32.toNat_sub_of_le _ _ (UInt32.le_iff_toNat_le.2 (by omega)), hlimit]
    omega
  · omega

/-- The pages of the loop are those that the range touches. -/
theorem mem_pages_iff_touches {address length : UInt32} (hlength : length ≠ 0)
    (hrange : InUserRange address length) :
    page ∈ pagesBetween (address &&& pageAddressMask) (address + length) ↔
      Touches address length page := by
  obtain ⟨hmin, hmax⟩ := hrange
  have hpositive : length.toNat ≠ 0 := fun hzero ↦ hlength (UInt32.toNat_inj.1 hzero)
  have hend : (address + length).toNat = address.toNat + length.toNat := by
    rw [UInt32.toNat_add]
    omega
  rw [mem_pagesBetween (aligned_and_mask address) (by omega), UInt32.le_iff_toNat_le,
    UInt32.lt_iff_toNat_lt, aligned_iff, hend, toNat_and_pageAddressMask]
  change _ ∧ _ ∧ page.toNat % 4096 = 0 ↔ _
  constructor
  · rintro ⟨hle, hlt, haligned⟩
    -- the first byte of the page, or of the range where that starts later
    rcases Nat.le_total page.toNat address.toNat with hbefore | hafter
    · exact ⟨0, by omega, by omega⟩
    · exact ⟨page.toNat - address.toNat, by omega, by omega⟩
  · rintro ⟨offset, hoffset, hpage⟩
    omega

theorem pagingValidateUserRange_iff (memory : Ram) (address length : UInt32) (writable : Bool) :
    pagingValidateUserRange address length writable memory = true ↔
      length = 0 ∨ (InUserRange address length ∧
        ∀ page, Touches address length page → Grants writable memory page) := by
  unfold pagingValidateUserRange
  by_cases hlength : length = 0
  · simp [hlength]
  rw [if_neg hlength, or_iff_right hlength]
  by_cases hrange : InUserRange address length
  · have hchecks := (inUserRange_iff hlength).1 hrange
    by_cases hnone : memory.pageDirectory = 0
    · rw [if_pos (.inl hnone)]
      have htouches : Touches address length (address &&& pageAddressMask) := by
        refine ⟨0, ?_, by rw [toNat_and_pageAddressMask, Nat.add_zero]⟩
        exact Nat.pos_of_ne_zero fun hzero ↦ hlength (UInt32.toNat_inj.1 hzero)
      exact ⟨by simp, fun h ↦ absurd (h.2 _ htouches) (not_grants_of_no_directory hnone)⟩
    · rw [if_neg (not_or.2 ⟨hnone, hchecks⟩), List.all_eq_true]
      simp only [mem_pages_iff_touches hlength hrange, pageIsUserAccessible_iff, hrange, true_and]
  · have hchecks := not_not.1 (mt (inUserRange_iff hlength).2 hrange)
    rw [if_pos (.inr hchecks)]
    exact ⟨by simp, fun h ↦ absurd h.1 hrange⟩

/-- The pages that the walk over a range looks at. -/
def visitedPages (address length : UInt32) (writable : Bool) (memory : Ram) : List UInt32 :=
  if length = 0 ∨ memory.pageDirectory = 0 ∨ address < pageSize ∨ userAddressLimit ≤ address ∨
      userAddressLimit - address < length then []
  else visited (pageIsUserAccessible writable memory)
    (pagesBetween (address &&& pageAddressMask) (address + length))

/-- A walk is over after one turn for each page below the kernel's half, and one more. -/
theorem walkUserRange_eq (memory : Ram) (address length : UInt32) (writable : Bool) {turns : ℕ}
    (hturns : 0xC0000 < turns) :
    walkUserRange turns address length writable memory =
      some (pagingValidateUserRange address length writable memory,
        visitedPages address length writable memory) := by
  unfold walkUserRange pagingValidateUserRange visitedPages
  by_cases hlength : length = 0
  · simp [hlength]
  by_cases hchecks : memory.pageDirectory = 0 ∨ address < pageSize ∨ userAddressLimit ≤ address ∨
      userAddressLimit - address < length
  · simp only [hlength, hchecks, if_true, if_false, or_true]
  · simp only [hlength, hchecks, if_false, or_false]
    obtain ⟨hmin, hmax⟩ := (inUserRange_iff hlength).2 fun h ↦ hchecks (.inr h)
    have hend : (address + length).toNat = address.toNat + length.toNat := by
      rw [UInt32.toNat_add]
      omega
    refine checkPages_eq writable memory (by omega) ?_
    rw [pagesBetween, List.length_map, List.length_range]
    omega

/-- A range is accepted exactly when it is empty, or does not wrap, is inside the user part and a
process can reach each page of it. The walk always ends; it looks at no page twice, only at pages of
the range and, when it accepts, at all of them, and goes on only from a page that is reachable. -/
theorem user_range_validation_exact (memory : Ram) (address length : UInt32) (writable : Bool) :
    (pagingValidateUserRange address length writable memory = true ↔
      length = 0 ∨ (InUserRange address length ∧
        ∀ page, Touches address length page → Grants writable memory page)) ∧
    ∃ pages : List UInt32,
      (∀ turns > 0xC0000, walkUserRange turns address length writable memory =
        some (pagingValidateUserRange address length writable memory, pages)) ∧
      pages.Nodup ∧ (∀ page ∈ pages, Touches address length page) ∧
      (∀ page ∈ pages.dropLast, Grants writable memory page) ∧
      (pagingValidateUserRange address length writable memory = true →
        ∀ page, Touches address length page → page ∈ pages) := by
  refine ⟨pagingValidateUserRange_iff memory address length writable,
    visitedPages address length writable memory,
    fun turns ↦ walkUserRange_eq memory address length writable, ?_⟩
  unfold visitedPages pagingValidateUserRange
  by_cases hlength : length = 0
  · refine ⟨by simp [hlength], by simp [hlength], by simp [hlength], ?_⟩
    rintro - page ⟨offset, hoffset, -⟩
    rw [hlength] at hoffset
    exact absurd hoffset (Nat.not_lt_zero _)
  by_cases hchecks : memory.pageDirectory = 0 ∨ address < pageSize ∨ userAddressLimit ≤ address ∨
      userAddressLimit - address < length
  · simp [hlength, hchecks]
  · simp only [hlength, hchecks, if_false, or_false]
    have hrange := (inUserRange_iff hlength).2 fun h ↦ hchecks (.inr h)
    have hend : (address + length).toNat ≤ 2 ^ 32 - 4096 := by
      rw [UInt32.toNat_add]
      have := hrange.2
      omega
    have hsub := visited_sublist (pageIsUserAccessible writable memory)
      (pagesBetween (address &&& pageAddressMask) (address + length))
    refine ⟨hsub.nodup (nodup_pagesBetween hend), ?_, ?_, ?_⟩
    · intro page hpage
      exact (mem_pages_iff_touches hlength hrange).1 (hsub.subset hpage)
    · intro page hpage
      exact (pageIsUserAccessible_iff _ _ _).1 (accepted_of_mem_dropLast hpage)
    · intro haccepted page htouches
      rw [visited_of_all haccepted]
      exact (mem_pages_iff_touches hlength hrange).2 htouches

end EfesOS.Memory
