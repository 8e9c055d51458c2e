import EfesOS.Memory.Mapping

/-!
# Mapping, protecting and unmapping pages

What the three calls on single pages do to the trees: `pagingMapPage_spec`, `pagingProtectPage_spec`
and `pagingUnmapPage_spec`. Each is a change of at most one mapping (`Writes`) with a change of the
tables around it (`Reshapes`). Mappings of the kernel are made and removed in its own tree above the
user addresses; the calls themselves do not check that, so it is a condition on the caller.
-/

set_option autoImplicit false

namespace EfesOS.Memory

open EfesOS.Foundation.PageTree

/-- The mapping of one page was replaced. -/
structure Writes (root address : UInt32) (mapping : Option Entry) (before : Ram)
    (role : UInt32 → Option Place) (after : Ram) (roleAfter : UInt32 → Option Place) : Prop where
  isolated : Isolated after roleAfter
  state : after.toPagingState = before.toPagingState
  map : before.pmm.SameMap after.pmm
  held : ∀ frame, after.pmm.Held frame ↔ before.pmm.Held frame
  owned : ∀ frame, after.pmm.Owned frame ↔ before.pmm.Owned frame
  others : ∀ frame place, place ≠ ⟨root, before.mode.path address⟩ →
    (roleAfter frame = some place ↔ role frame = some place)
  frames : ∀ frame, role frame ≠ some ⟨root, before.mode.tablePath address⟩ →
    after.frames frame = before.frames frame
  tables : ∀ other place, before.IsRoot other →
    tableOf other place after = tableOf other place before
  mapping : mappingOf root address after = mapping
  mappings : ∀ other place, before.IsRoot other →
    Isolated.OwnRegion before.toPagingState other place →
    other ≠ root ∨ before.mode.path place ≠ before.mode.path address →
    mappingOf other place after = mappingOf other place before

section

variable {memory after : Ram} {role roleAfter : UInt32 → Option Place}
  {root address table physical flags : UInt32} {entry : Entry}

/-- Every mapping after one was replaced. -/
theorem Writes.mappingOf_eq {mapping : Option Entry} {other place : UInt32}
    (hwrites : Writes root address mapping memory role after roleAfter)
    (hroot : memory.IsRoot other)
    (hregion : Isolated.OwnRegion memory.toPagingState other place) :
    mappingOf other place after =
      if other = root ∧ memory.mode.path place = memory.mode.path address then mapping
      else mappingOf other place memory := by
  split_ifs with hsame
  · rw [← hwrites.state] at hsame
    rw [hsame.1, mappingOf_congr hsame.2, hwrites.mapping]
  · exact hwrites.mappings other place hroot hregion (not_and_or.1 hsame)

theorem tablePath_ne_path (mode : Mode) (first second : UInt32) :
    mode.tablePath first ≠ mode.path second := by
  intro h
  have htable := level_tablePath mode first
  rw [h, level_path] at htable
  cases htable

theorem directoryPath_ne_path (mode : Mode) (first second : UInt32) :
    mode.directoryPath first ≠ mode.path second := by
  intro h
  have hdirectory := level_directoryPath mode first
  rw [h, level_path] at hdirectory
  cases hdirectory

theorem directoryPath_ne_tablePath (mode : Mode) (first second : UInt32) :
    mode.directoryPath first ≠ mode.tablePath second := by
  intro h
  have hdirectory := level_directoryPath mode first
  rw [h, level_tablePath] at hdirectory
  cases hdirectory

section

variable (h : Isolated memory role) (hroot : memory.IsRoot root)
  (hregion : Isolated.OwnRegion memory.toPagingState root address)
  (hrole : role table = some ⟨root, memory.mode.tablePath address⟩)
  (hstores : Stores memory table (memory.mode.tableIndex address) entry after)
include h hroot hregion hrole hstores

/-- Storing an entry of a table replaces one mapping. -/
theorem writes_of_stores
    (hisolated : Isolated after roleAfter) (hmap : memory.pmm.SameMap after.pmm)
    (hheld : ∀ frame, after.pmm.Held frame ↔ memory.pmm.Held frame)
    (howned : ∀ frame, after.pmm.Owned frame ↔ memory.pmm.Owned frame)
    (hothers : ∀ frame place, place ≠ ⟨root, memory.mode.path address⟩ →
      (roleAfter frame = some place ↔ role frame = some place)) :
    Writes root address entry.view memory role after roleAfter := by
  have hsame : ∀ place slot, place ≠ ⟨root, memory.mode.path address⟩ →
      (place = ⟨root, memory.mode.tablePath address⟩ → slot ≠ memory.mode.tableIndex address) →
      SameEntry memory role after roleAfter place slot := by
    intro place slot hplace helse
    have hentry : ∀ frame, role frame = some place →
        after.entry frame slot = memory.entry frame slot := by
      refine fun frame hframe ↦ hstores.other ?_
      rintro ⟨rfl, rfl⟩
      exact helse (Option.some.inj (hframe.symm.trans hrole)) rfl
    refine ⟨fun frame hframe _ ↦ ⟨(hothers frame place hplace).2 hframe, hentry frame hframe⟩,
      fun frame hframe _ ↦ ?_⟩
    have hbefore := (hothers frame place hplace).1 hframe
    exact ⟨hbefore, hentry frame hbefore⟩
  refine ⟨hisolated, hstores.state, hmap, hheld, howned, hothers, ?_, ?_, ?_, ?_⟩
  · intro frame hframe
    refine hstores.frames_of_ne ?_
    rintro rfl
    exact hframe hrole
  · intro other place hother
    refine (hsame _ _ ?_ ?_).tableOf_eq h hisolated hstores.state hother
    · exact fun hnode ↦ directoryPath_ne_path _ _ _ (congrArg Node.path hnode)
    · exact fun hnode ↦ absurd (congrArg Node.path hnode) (directoryPath_ne_tablePath _ _ _)
  · have hafter : roleAfter table = some ⟨root, memory.mode.tablePath address⟩ := by
      rw [hothers _ _ fun hnode ↦ tablePath_ne_path _ _ _ (congrArg Node.path hnode)]
      exact hrole
    ext other
    rw [hisolated.mappingOf_eq_some (by rw [hstores.state]; exact hroot)
      (by rw [hstores.state]; exact hregion), Entry.view_eq_some, hstores.state]
    constructor
    · rintro ⟨frame, hframe, hentry, hpresent⟩
      rw [hisolated.typed.injective hframe hafter, hstores.self] at hentry
      exact ⟨hentry, hpresent⟩
    · rintro ⟨hentry, hpresent⟩
      exact ⟨table, hafter, hstores.self.trans hentry, hpresent⟩
  · intro other place hother hown hplace
    refine (hsame _ _ ?_ ?_).mappingOf_eq h hisolated hstores.state hother hown
    · exact fun hnode ↦ tablePath_ne_path _ _ _ (congrArg Node.path hnode)
    · intro hnode hslot
      injection hnode with hotherRoot hpath
      refine hplace.elim (fun hne ↦ hne hotherRoot) fun hne ↦ hne ?_
      rw [Mode.path, Mode.path, hslot, hpath]

/-- An entry is rewritten in place. -/
theorem writes_of_rewrite (hisolated : Isolated after role) (hpmm : after.pmm = memory.pmm) :
    Writes root address entry.view memory role after role := by
  refine writes_of_stores h hroot hregion hrole hstores hisolated ?_ ?_ ?_ fun _ _ _ ↦ .rfl
  all_goals rw [hpmm]
  · exact .refl _
  all_goals exact fun _ ↦ .rfl

end

/-- An entry of a table of the kernel, or of a frame outside the trees, is replaced by one that is
not the user's. -/
theorem Isolated.rewriteKernel {slot : ℕ} (h : Isolated memory role)
    (hstores : Stores memory table slot entry after) (hpmm : after.pmm = memory.pmm)
    (hrole : ∀ place, role table = some place →
      memory.mode.level place.path = .table ∧ place.root = memory.kernelPageDirectory)
    (huser : entry.present = true → (∃ place, role table = some place) → entry.user = false) :
    Isolated after role := by
  refine h.rewrite hstores hpmm ?_ ?_
  · intro place hplace hlinks
    obtain ⟨hlevel, hroot⟩ := hrole place hplace
    simp only [discipline, hlevel] at hlinks
    exact absurd hroot hlinks.2
  · intro place hplace hpresent
    obtain ⟨hlevel, hroot⟩ := hrole place hplace
    have hkernel := huser hpresent ⟨place, hplace⟩
    simp only [discipline, hlevel, hkernel, hroot]
    exact fun _ ↦ ⟨by simp, by simp⟩

/-- What the kernel finds as a table of its own tree is one. -/
theorem role_getPageTable (h : Isolated memory role) (address : UInt32)
    (hcurrent : memory.pageDirectory = memory.kernelPageDirectory) {place : Place}
    (hrole : role (getPageTable address memory) = some place) :
    memory.mode.level place.path = .table ∧ place.root = memory.kernelPageDirectory := by
  rcases h.getPageTableFor_cases h.current (.inl hcurrent : Isolated.OwnRegion _ _ address) with
    ⟨hzero, -⟩ | ⟨-, htable⟩
  · exact absurd hzero (h.held _ _ hrole).ne_zero
  · rw [show role (getPageTable address memory) = _ from htable] at hrole
    injection hrole with hrole
    subst hrole
    exact ⟨level_tablePath _ _, hcurrent⟩

/-! ### Mapping -/

/-- What `paging_map_page` checks before it looks for a table. -/
structure MapChecked (address physical flags : UInt32) (memory : Ram) : Prop where
  aligned : Aligned address
  physicalAligned : Aligned physical
  flagsAllowed : ¬flagsRefused flags
  owned : flags &&& pageFlagUser ≠ 0 → memory.pmm.Owned physical
  userAllowed : ¬userMappingRefused address flags memory
  notShared : usesSharedKernelTable address memory = false

/-- The leaf was stored and, for a process, its frame claimed. -/
structure MapStored (address physical flags table : UInt32) (memory after : Ram) : Prop where
  table_ne : table ≠ 0
  absent : (memory.entry table (memory.mode.tableIndex address)).present = false
  stores : Stores memory table (memory.mode.tableIndex address)
    (memory.mode.leaf memory.paeNxEnabled physical flags) after
  claimed : flags &&& pageFlagUser ≠ 0 → memory.pmm.Owned physical ∧ ¬memory.pmm.Mapped physical ∧
    memory.pmm.Marks physical true after.pmm
  kept : flags &&& pageFlagUser = 0 → after.pmm = memory.pmm

theorem stores_invalidatePage {slot : ℕ} (pmm : Pmm)
    (hnarrow : memory.mode = .legacy → entry.high = 0) :
    Stores memory table slot entry
      (({ memory with pmm := pmm }.setEntry table slot entry).invalidatePage address) := by
  refine ⟨by simp, ?_, hnarrow⟩
  rw [Ram.frames_invalidatePage]
  unfold Ram.setEntry
  cases memory.mode <;> rfl

theorem leaf_narrow (memory : Ram) (physical flags : UInt32) :
    memory.mode = .legacy → (memory.mode.leaf memory.paeNxEnabled physical flags).high = 0 := by
  intro hmode
  rw [hmode]
  rfl

theorem pagingMapPage_cases (address physical flags : UInt32) (memory : Ram) :
    pagingMapPage address physical flags memory = (false, memory) ∨
    MapChecked address physical flags memory ∧
      ∃ table middle, ensurePageTable address flags memory = (table, middle) ∧
        (pagingMapPage address physical flags memory = (false, middle) ∧
            (table = 0 ∨
              (middle.entry table (middle.mode.tableIndex address)).present = true ∨
              flags &&& pageFlagUser ≠ 0 ∧ (pmmClaimUserBlock physical middle.pmm).1 = false) ∨
          (pagingMapPage address physical flags memory).1 = true ∧
            MapStored address physical flags table middle
              (pagingMapPage address physical flags memory).2) := by
  unfold pagingMapPage
  split
  · exact .inl rfl
  next hchecks =>
  simp only [not_or, not_not, not_and, Bool.not_eq_false] at hchecks
  obtain ⟨-, -, -, haligned, hphysical, hflags, howned, huser, hshared⟩ := hchecks
  refine .inr ⟨⟨haligned, hphysical, hflags, fun h ↦ pmmBlockIsUserOwned_iff.1 (howned h), huser,
    by simpa using hshared⟩, ?_⟩
  cases hensure : ensurePageTable address flags memory with
  | mk table middle =>
  refine ⟨table, middle, rfl, ?_⟩
  dsimp only
  by_cases hzero : table = 0
  · rw [if_pos hzero]
    exact .inl ⟨rfl, .inl hzero⟩
  rw [if_neg hzero]
  by_cases hpresent : (middle.entry table (middle.mode.tableIndex address)).present = true
  · rw [if_pos hpresent]
    exact .inl ⟨rfl, .inr (.inl hpresent)⟩
  rw [if_neg hpresent]
  by_cases hflag : flags &&& pageFlagUser ≠ 0
  · rw [if_pos hflag]
    rcases pmmClaimUserBlock_cases physical middle.pmm with
      hclaim | ⟨pmm, hclaim, hpageOwned, hnot, hmarks⟩
    · rw [hclaim]
      exact .inl ⟨rfl, .inr (.inr ⟨hflag, rfl⟩)⟩
    · rw [hclaim]
      refine .inr ⟨rfl, hzero, by simpa using hpresent,
        stores_invalidatePage pmm (leaf_narrow middle physical flags),
        fun _ ↦ ⟨hpageOwned, hnot, ?_⟩, fun hkernel ↦ absurd hkernel hflag⟩
      simpa using hmarks
  · rw [if_neg hflag]
    refine .inr ⟨rfl, hzero, by simpa using hpresent,
      stores_invalidatePage middle.pmm (leaf_narrow middle physical flags),
      fun huserFlag ↦ absurd huserFlag hflag, fun _ ↦ ?_⟩
    simp

/-- What a mapping asks of its caller: the kernel maps above the user addresses, in its own tree. -/
def MapsInOwnHalf (address flags : UInt32) (memory : Ram) : Prop :=
  flags &&& pageFlagUser = 0 →
    memory.pageDirectory = memory.kernelPageDirectory ∧ userAddressLimit ≤ address

theorem MapChecked.fitting (hchecked : MapChecked address physical flags memory)
    (hcaller : MapsInOwnHalf address flags memory) :
    Fitting memory.toPagingState address flags := by
  by_cases huser : flags &&& pageFlagUser = 0
  · exact .inr ⟨huser, hcaller huser⟩
  · have hallowed := hchecked.userAllowed
    simp only [userMappingRefused, not_and, not_or, UInt32.not_lt, UInt32.not_le] at hallowed
    obtain ⟨hprivate, hmin, hlimit⟩ := hallowed huser
    exact .inl ⟨huser, hprivate, hmin, hlimit⟩

/-- A leaf that passed the checks is of the kind its table asks for. -/
theorem Fitting.admits_leaf (hfit : Fitting memory.toPagingState address flags)
    (haligned : Aligned physical) (hflags : ¬flagsRefused flags) :
    (discipline memory.toPagingState).admits
      ⟨memory.pageDirectory, memory.mode.tablePath address⟩ (memory.mode.tableIndex address)
      (memory.mode.leaf memory.paeNxEnabled physical flags) := by
  simp only [discipline, level_tablePath]
  intro _
  rw [user_leaf haligned, decide_eq_true_eq]
  exact ⟨hfit.user_iff,
    fun _ ↦ leaf_not_writable_and_executable memory.toPagingState haligned hflags⟩

/-- A stored leaf is the new mapping of its page. -/
theorem MapStored.writes (hstored : MapStored address physical flags table memory after)
    (h : Isolated memory role) (hfit : Fitting memory.toPagingState address flags)
    (haligned : Aligned physical) (hflags : ¬flagsRefused flags)
    (hrole : role table = some ⟨memory.pageDirectory, memory.mode.tablePath address⟩) :
    Writes memory.pageDirectory address
      (some (memory.mode.leaf memory.paeNxEnabled physical flags)) memory role after
      (if flags &&& pageFlagUser ≠ 0 then
        Function.update role physical
          (some ⟨memory.pageDirectory, memory.mode.path address⟩)
      else role) := by
  have hpresent := present_leaf memory.mode memory.paeNxEnabled physical flags
  have hview : (memory.mode.leaf memory.paeNxEnabled physical flags).view =
      some (memory.mode.leaf memory.paeNxEnabled physical flags) := if_pos hpresent
  have hphysical : (memory.mode.leaf memory.paeNxEnabled physical flags).physical = physical :=
    physical_leaf haligned
  have hadmits := hfit.admits_leaf haligned hflags
  rw [← hview]
  by_cases huser : flags &&& pageFlagUser ≠ 0
  · rw [if_pos huser]
    obtain ⟨howned, hnot, hmarks⟩ := hstored.claimed huser
    have hlinks := Isolated.links_table (level_tablePath memory.mode address)
      (memory.mode.tableIndex_lt address) (hfit.user_iff.1 huser)
    have hisolated := h.mapUser hrole hlinks (level_path memory.mode address) hstored.absent
      hstored.stores hpresent hadmits (hphysical.symm ▸ howned) (hphysical.symm ▸ hnot)
      (hphysical.symm ▸ hmarks)
    rw [hphysical] at hisolated
    refine writes_of_stores h h.current hfit.ownRegion hrole hstored.stores hisolated hmarks.map
      hmarks.held hmarks.owned ?_
    intro frame place hplace
    rw [Function.update_apply]
    split_ifs with heq
    · rw [heq]
      refine iff_of_false ?_ ?_
      · intro hnode
        injection hnode with hnode
        exact hplace hnode.symm
      · intro hbefore
        by_cases hpage : memory.mode.level place.path = .page
        · exact hnot (h.page _ _ hbefore hpage)
        · exact h.kernelOwned _ _ hbefore hpage howned
    · exact Iff.rfl
  · rw [if_neg huser]
    have hkept := hstored.kept (not_not.1 huser)
    have hkernel : memory.pageDirectory = memory.kernelPageDirectory :=
      not_not.1 fun hne ↦ huser (hfit.user_iff.2 hne)
    have hisolated : Isolated after role := by
      refine h.rewriteKernel hstored.stores hkept (fun place hplace ↦ ?_)
        fun _ _ ↦ (user_leaf haligned).trans (decide_eq_false huser)
      cases hrole.symm.trans hplace
      exact ⟨level_tablePath _ _, hkernel⟩
    exact writes_of_rewrite h h.current hfit.ownRegion hrole hstored.stores hisolated hkept

/-- A page directory that was just made has no table. -/
theorem tableOf_directoryOnly {directory : UInt32} {pmm : Pmm} (h : Isolated memory role)
    (hmode : memory.mode = .pae) (hnone : directoryFor memory.pageDirectory address memory = 0)
    (htakes : memory.pmm.Takes directory false pmm) {other place : UInt32}
    (hother : memory.IsRoot other) :
    tableOf other place (Isolated.linked memory.pageDirectory (pdptIndex address) directory
      (directoryEntry directory) pmm memory) = tableOf other place memory := by
  have hreshapes := reshapes_directory h hmode hnone htakes
  by_cases hsame : other = memory.pageDirectory ∧
      memory.mode.tablePath place = memory.mode.tablePath address
  swap
  · exact hreshapes.tables other place hother (not_and_or.1 hsame)
  obtain ⟨rfl, hpath⟩ := hsame
  have hparent := h.fresh_ne (h.typed.top _ h.current) htakes
  injection hpath with hindex hupper
  have hbefore : tableOf memory.pageDirectory place memory = none := by
    rw [← Option.not_isSome_iff_eq_none, Option.isSome_iff_exists]
    rintro ⟨entry, hentry⟩
    obtain ⟨frame, hframe, -⟩ := (h.tableOf_eq_some h.current).1 hentry
    rw [hupper] at hframe
    exact ((h.directoryFor_cases h.current address).resolve_right fun hsome ↦
      hsome.1 hnone).2 frame hframe
  rw [hbefore, ← Option.not_isSome_iff_eq_none, Option.isSome_iff_exists]
  rintro ⟨entry, hentry⟩
  obtain ⟨frame, hframe, rfl, hpresent⟩ := (hreshapes.isolated.tableOf_eq_some
    (by rw [hreshapes.state]; exact h.current)).1 hentry
  rw [hreshapes.state, hupper, hmode] at hframe
  rw [hreshapes.isolated.typed.injective hframe (Function.update_self _ _ _),
    Isolated.entry_linked_fresh hparent] at hpresent
  cases hpresent

/-- A new table has no entry for any address. -/
theorem Ensured.present_of_not_found (hensured : Ensured address flags memory table after)
    (h : Isolated memory role) (huser : flags &&& pageFlagUser = 0)
    (hfail : table = 0 ∨ (after.entry table (after.mode.tableIndex address)).present = true) :
    (∃ roleAfter, Reshapes memory.pageDirectory address memory role after roleAfter) ∧
      ∀ other place, memory.IsRoot other →
        tableOf other place after = tableOf other place memory := by
  cases hensured with
  | failed => exact ⟨⟨role, .refl h⟩, fun _ _ _ ↦ rfl⟩
  | directoryOnly directory pmm hmode hnone htakes =>
    exact ⟨⟨_, reshapes_directory h hmode hnone htakes⟩,
      fun _ _ ↦ tableOf_directoryOnly h hmode hnone htakes⟩
  | found directory hdirectory hne hpresent =>
    rw [if_neg (not_not.2 huser)]
    exact ⟨⟨role, .refl h⟩, fun _ _ _ ↦ rfl⟩
  | made directory table pmm hdirectory hne habsent htakes =>
    rcases hfail with hzero | hpresent
    · exact absurd hzero htakes.nonzero
    · subst hdirectory
      have hrole := h.role_directoryFor h.current hne
      rw [Isolated.entry_linked_fresh (h.fresh_ne hrole htakes)] at hpresent
      cases hpresent
  | madeBoth directory table pmm next hmode hnone htakes hnext =>
    rcases hfail with hzero | hpresent
    · exact absurd hzero hnext.nonzero
    · have hother : table ≠ directory := by
        rintro rfl
        exact hnext.free ((htakes.held _).2 (.inr rfl))
      rw [Isolated.entry_linked_fresh hother] at hpresent
      cases hpresent

/-- Where the kernel has a table, nothing is made. -/
theorem Ensured.eq_of_present (hensured : Ensured address flags memory table after)
    (huser : flags &&& pageFlagUser = 0)
    (hsome : tableOf memory.pageDirectory address memory ≠ none) : after = memory := by
  obtain ⟨entry, hentry⟩ := Option.ne_none_iff_exists'.1 hsome
  obtain ⟨hne, rfl, hpresent⟩ := tableOf_eq_some_iff.1 hentry
  cases hensured with
  | failed => rfl
  | found directory hdirectory => exact if_neg (not_not.2 huser)
  | directoryOnly directory pmm hmode hnone | madeBoth directory table pmm next hmode hnone =>
    exact absurd hnone hne
  | made directory table pmm hdirectory _ habsent =>
    rw [hdirectory, habsent] at hpresent
    cases hpresent

/-- A call that maps a page makes the tables it needs and then the mapping. One that fails may leave
the tables behind and nothing else, and these only where it might have mapped the page. -/
theorem pagingMapPage_spec (h : Isolated memory role) (address physical flags : UInt32)
    (hcaller : (pagingMapPage address physical flags memory).1 = true →
      MapsInOwnHalf address flags memory) :
    ∃ middle roleMiddle,
      Reshapes memory.pageDirectory address memory role middle roleMiddle ∧
      (flags &&& pageFlagUser = 0 → tableOf memory.pageDirectory address memory ≠ none →
        middle = memory) ∧
      (pagingMapPage address physical flags memory = (false, middle) ∧
          (Fitting memory.toPagingState address flags ∨ ∀ other place, memory.IsRoot other →
            tableOf other place middle = tableOf other place memory) ∨
        (pagingMapPage address physical flags memory).1 = true ∧
        Fitting memory.toPagingState address flags ∧
        MapChecked address physical flags memory ∧
        mappingOf memory.pageDirectory address memory = none ∧
        (flags &&& pageFlagUser ≠ 0 → ¬memory.pmm.Mapped physical) ∧
        Writes memory.pageDirectory address
          (some (memory.mode.leaf memory.paeNxEnabled physical flags)) middle roleMiddle
          (pagingMapPage address physical flags memory).2
          (if flags &&& pageFlagUser ≠ 0 then
            Function.update roleMiddle physical
              (some ⟨memory.pageDirectory, memory.mode.path address⟩)
          else roleMiddle)) := by
  rcases pagingMapPage_cases address physical flags memory with
    hrefused | ⟨hchecked, table, middle, hensure, houtcome⟩
  · exact ⟨memory, role, .refl h, fun _ _ ↦ rfl, .inl ⟨hrefused, .inr fun _ _ _ ↦ rfl⟩⟩
  have hensured := ensured_ensurePageTable h address flags
  rw [hensure] at hensured
  rcases houtcome with ⟨hresult, hfail⟩ | ⟨hresult, hstored⟩
  · by_cases huser : flags &&& pageFlagUser = 0
    · obtain ⟨⟨roleMiddle, hreshapes⟩, htables⟩ := hensured.present_of_not_found h huser
        (hfail.imp_right fun h ↦ h.resolve_right fun hclaim ↦ hclaim.1 huser)
      exact ⟨middle, roleMiddle, hreshapes, hensured.eq_of_present, .inl ⟨hresult, .inr htables⟩⟩
    · have hfit := hchecked.fitting fun hkernel ↦ absurd hkernel huser
      obtain ⟨roleMiddle, hreshapes, -⟩ := hensured.reshapes h hfit
      exact ⟨middle, roleMiddle, hreshapes, hensured.eq_of_present, .inl ⟨hresult, .inl hfit⟩⟩
  · have hfit := hchecked.fitting (hcaller hresult)
    obtain ⟨roleMiddle, hreshapes, hrole⟩ := hensured.reshapes h hfit
    have hstate := hreshapes.state
    have hmiddleFit : Fitting middle.toPagingState address flags := by
      rw [hstate]
      exact hfit
    have hmiddleRole : roleMiddle table =
        some ⟨middle.pageDirectory, middle.mode.tablePath address⟩ := by
      rw [hstate]
      exact hrole.resolve_left hstored.table_ne
    have hwrites := hstored.writes hreshapes.isolated hmiddleFit hchecked.physicalAligned
      hchecked.flagsAllowed hmiddleRole
    have hnone : mappingOf memory.pageDirectory address memory = none := by
      rw [← hreshapes.mappings _ _ h.current hfit.ownRegion, ← Option.not_isSome_iff_eq_none,
        Option.isSome_iff_exists]
      rintro ⟨entry, hentry⟩
      rw [hreshapes.isolated.mappingOf_eq_some (by rw [hstate]; exact h.current)
        (by rw [hstate]; exact hfit.ownRegion), hstate] at hentry
      obtain ⟨frame, hframe, hentry, hpresent⟩ := hentry
      have habsent := hstored.absent
      rw [hstate] at habsent hmiddleRole
      rw [hreshapes.isolated.typed.injective hframe hmiddleRole] at hentry
      rw [hentry, hpresent] at habsent
      cases habsent
    rw [hstate] at hwrites
    refine ⟨middle, roleMiddle, hreshapes, hensured.eq_of_present,
      .inr ⟨hresult, hfit, hchecked, hnone, ?_, hwrites⟩⟩
    intro huser
    rw [← hreshapes.mapped]
    exact (hstored.claimed huser).2.1

/-! ### Protecting -/

/-- An entry that changes neither its frame nor its owner stays in its place. -/
theorem admits_of_same_user {state : PagingState} {place : Place} {slot : ℕ} {old new : Entry}
    (hold : (discipline state).admits place slot old) (huser : new.user = old.user)
    (hnew : new.user = true → new.writable = true → ¬new.MayExecute state) :
    (discipline state).admits place slot new := by
  simp only [discipline] at hold ⊢
  split
  · trivial
  · next hlevel =>
    simp only [hlevel] at hold
    rw [huser]
    exact hold
  · next hlevel =>
    simp only [hlevel] at hold
    refine fun hslot ↦ ⟨?_, hnew⟩
    rw [huser]
    exact (hold hslot).1
  · trivial

/-- What `paging_protect_page` has checked when it stores the new entry. -/
structure ProtectChecked (address flags : UInt32) (memory : Ram) : Prop where
  flagsAllowed : ¬flagsRefused flags
  userAllowed : ¬userMappingRefused address flags memory
  notShared : usesSharedKernelTable address memory = false
  present : (currentEntry address memory).present = true
  user : (currentEntry address memory).user = decide (flags &&& pageFlagUser ≠ 0)

/-- The entry of an address after a change of its flags. -/
def protectedEntry (address flags : UInt32) (memory : Ram) : Entry :=
  memory.mode.leaf memory.paeNxEnabled (currentEntry address memory).physical flags

theorem getPageTable_eq_of_present (hpresent : (currentEntry address memory).present = true) :
    getPageTable address memory ≠ 0 ∧ currentEntry address memory =
      memory.entry (getPageTable address memory) (memory.mode.tableIndex address) := by
  unfold currentEntry at hpresent ⊢
  dsimp only at hpresent ⊢
  split_ifs at hpresent ⊢ with hzero
  · cases hpresent
  · exact ⟨hzero, rfl⟩

section

variable (hchecked : ProtectChecked address flags memory) (h : Isolated memory role)
include hchecked h

theorem ProtectChecked.isolated
    (hstores : Stores memory (getPageTable address memory) (memory.mode.tableIndex address)
      (protectedEntry address flags memory) after) (hpmm : after.pmm = memory.pmm) :
    Isolated after role := by
  obtain ⟨-, hentry⟩ := getPageTable_eq_of_present hchecked.present
  have hpresent := hchecked.present
  rw [hentry] at hpresent
  have haligned : Aligned (currentEntry address memory).physical := Entry.aligned_physical _
  have hphysical : (protectedEntry address flags memory).physical =
      (currentEntry address memory).physical := physical_leaf haligned
  refine h.rewrite hstores hpmm ?_ ?_
  · intro place _ _
    rw [hpresent, protectedEntry, present_leaf]
    refine ⟨rfl, fun _ ↦ ?_⟩
    rw [← hentry]
    exact hphysical
  · intro place hrole _
    refine admits_of_same_user (h.typed.admits _ _ _ hrole hpresent) ?_ ?_
    · rw [protectedEntry, user_leaf haligned, ← hentry, hchecked.user]
    · intro _
      exact leaf_not_writable_and_executable memory.toPagingState haligned hchecked.flagsAllowed

/-- Protecting a page of an own region replaces its mapping. -/
theorem ProtectChecked.writes
    (hregion : Isolated.OwnRegion memory.toPagingState memory.pageDirectory address)
    (hstores : Stores memory (getPageTable address memory) (memory.mode.tableIndex address)
      (protectedEntry address flags memory) after) (hpmm : after.pmm = memory.pmm) :
    Writes memory.pageDirectory address (some (protectedEntry address flags memory)) memory role
      after role := by
  obtain ⟨hne, -⟩ := getPageTable_eq_of_present hchecked.present
  have hrole := ((h.getPageTableFor_cases h.current hregion).resolve_left fun hzero ↦ hne hzero.1).2
  have hview : (protectedEntry address flags memory).view =
      some (protectedEntry address flags memory) := if_pos (present_leaf _ _ _ _)
  rw [← hview]
  exact writes_of_rewrite h h.current hregion hrole hstores (hchecked.isolated h hstores hpmm) hpmm

end

theorem tableOf_isSome (hne : getPageTableFor root address memory ≠ 0) :
    (directoryEntryOf root address memory).present = true := by
  rw [getPageTableFor_eq] at hne
  split_ifs at hne with hpresent
  · exact hpresent
  · exact absurd rfl hne

/-- The directory entry of a user mapping is marked as the user's already. -/
theorem frames_mark_user (h : Isolated memory role)
    (hprivate : memory.pageDirectory ≠ memory.kernelPageDirectory)
    (hregion : userMappingMin ≤ address ∧ address < userAddressLimit)
    (hpresent : (directoryEntryOf memory.pageDirectory address memory).present = true) :
    (memory.setEntry (directoryFor memory.pageDirectory address memory)
      (memory.mode.directoryIndex address)
      (memory.entry (directoryFor memory.pageDirectory address memory)
        (memory.mode.directoryIndex address)).withUser).frames = memory.frames := by
  have huser := (h.user_directoryEntry h.current hpresent).2 ⟨hprivate, hregion⟩
  unfold directoryEntryOf at hpresent huser
  dsimp only at hpresent huser
  split_ifs at hpresent huser
  · cases hpresent
  · rw [withUser_of_user huser, Ram.frames_setEntry_self]

theorem pagingProtectPage_cases (h : Isolated memory role) (address flags : UInt32) :
    pagingProtectPage address flags memory = (false, memory) ∨
    (pagingProtectPage address flags memory).1 = true ∧ ProtectChecked address flags memory ∧
      (pagingProtectPage address flags memory).2.pmm = memory.pmm ∧
      Stores memory (getPageTable address memory) (memory.mode.tableIndex address)
        (protectedEntry address flags memory) (pagingProtectPage address flags memory).2 := by
  unfold pagingProtectPage
  split
  · exact .inl rfl
  next hchecks =>
  simp only [not_or, not_not, Bool.not_eq_true] at hchecks
  obtain ⟨-, -, -, hflags, huserAllowed, hshared⟩ := hchecks
  dsimp only
  split
  · exact .inl rfl
  next hne =>
  split
  · exact .inl rfl
  next hentry =>
  simp only [not_or, not_not, Bool.not_eq_false] at hentry
  obtain ⟨hpresent, huser, -⟩ := hentry
  have hcurrent : currentEntry address memory =
      memory.entry (getPageTable address memory) (memory.mode.tableIndex address) := if_neg hne
  have hchecked : ProtectChecked address flags memory :=
    ⟨hflags, huserAllowed, hshared, by rw [hcurrent]; exact hpresent,
      by rw [hcurrent]; exact huser⟩
  let stored := memory.setEntry (getPageTable address memory) (memory.mode.tableIndex address)
    (protectedEntry address flags memory)
  have hstores : Stores memory (getPageTable address memory) (memory.mode.tableIndex address)
      (protectedEntry address flags memory) stored :=
    ⟨Ram.toPagingState_setEntry _ _ _, rfl, leaf_narrow memory _ flags⟩
  have hstoredState : stored.toPagingState = memory.toPagingState := hstores.state
  rw [← hcurrent]
  refine .inr ⟨rfl, hchecked, ?_, ?_⟩
  · split <;> simp
  refine ⟨?_, ?_, leaf_narrow memory _ flags⟩
  · split <;> simp
  rw [Ram.frames_invalidatePage]
  split
  · next hflag =>
    have hallowed := huserAllowed
    simp only [userMappingRefused, not_and, not_or, UInt32.not_lt, UInt32.not_le] at hallowed
    obtain ⟨hprivate, hregion⟩ := hallowed hflag
    have hwrites := hchecked.writes h (.inr hregion) hstores (Ram.pmm_setEntry _ _ _)
    have htable : (directoryEntryOf stored.pageDirectory address stored).present = true := by
      have hsame := hwrites.tables memory.pageDirectory address h.current
      rw [hstoredState]
      by_contra habsent
      rw [tableOf, Entry.view_eq_none.2 (by simpa using habsent), eq_comm, tableOf,
        Entry.view_eq_none, tableOf_isSome hne] at hsame
      cases hsame
    refine frames_mark_user (hchecked.isolated h hstores (Ram.pmm_setEntry _ _ _)) ?_ hregion htable
    rw [Ram.toPagingState_setEntry]
    exact hprivate
  · rfl

/-- Changing the flags of a page leaves the trees as they are, and the page's frame. -/
theorem pagingProtectPage_spec (h : Isolated memory role) (address flags : UInt32) :
    pagingProtectPage address flags memory = (false, memory) ∨
    (pagingProtectPage address flags memory).1 = true ∧ ProtectChecked address flags memory ∧
      (pagingProtectPage address flags memory).2.toPagingState = memory.toPagingState ∧
      (pagingProtectPage address flags memory).2.pmm = memory.pmm ∧
      Isolated (pagingProtectPage address flags memory).2 role ∧
      (Isolated.OwnRegion memory.toPagingState memory.pageDirectory address →
        Writes memory.pageDirectory address (some (protectedEntry address flags memory)) memory
          role (pagingProtectPage address flags memory).2 role) := by
  rcases pagingProtectPage_cases h address flags with hrefused | ⟨htrue, hchecked, hpmm, hstores⟩
  · exact .inl hrefused
  · exact .inr ⟨htrue, hchecked, hstores.state, hpmm, hchecked.isolated h hstores hpmm,
      fun hregion ↦ hchecked.writes h hregion hstores hpmm⟩

/-! ### Unmapping -/

/-- What unmapping asks of its caller: the page is a process's own, or the kernel's above the user
addresses. -/
def UnmapsInOwnHalf (address : UInt32) (memory : Ram) : Prop :=
  (currentEntry address memory).present = true →
    (currentDirectoryEntry address memory).user = true ∧ (currentEntry address memory).user = true ∨
    memory.pageDirectory = memory.kernelPageDirectory ∧ userAddressLimit ≤ address

/-- The entry of a page is gone and, for a process, its frame released. -/
structure UnmapStored (address : UInt32) (memory after : Ram) : Prop where
  stores : Stores memory (getPageTable address memory)
    (memory.mode.tableIndex address) .absent after
  pmm : after.pmm = if (currentEntry address memory).user then
    pmmReleaseUserBlock (currentEntry address memory).physical memory.pmm else memory.pmm

/-- What `paging_unmap_page` turns away. -/
def UnmapRefused (address : UInt32) (memory : Ram) : Prop :=
  memory.pageDirectory = 0 ∨ address < pageSize ∨ ¬Aligned address ∨
    (memory.pageDirectory = memory.kernelPageDirectory ∧ address < userMappingMin) ∨
    usesSharedKernelTable address memory = true ∨ (currentEntry address memory).present = false

theorem pagingUnmapPage_cases (address : UInt32) (memory : Ram) :
    (pagingUnmapPage address memory = (0, memory) ∧ UnmapRefused address memory) ∨
    (currentEntry address memory).present = true ∧
      usesSharedKernelTable address memory = false ∧
      ∃ middle, UnmapStored address memory middle ∧
        pagingUnmapPage address memory = ((currentEntry address memory).physical,
          if middle.tableInUse (getPageTable address memory) then middle
          else dropTable address (getPageTable address memory) middle) := by
  unfold pagingUnmapPage
  split
  next hchecks =>
    refine .inl ⟨rfl, ?_⟩
    rcases hchecks with hzero | hpage | haligned | hlow | hshared
    exacts [.inl hzero, .inr (.inl hpage), .inr (.inr (.inl haligned)),
      .inr (.inr (.inr (.inl hlow))), .inr (.inr (.inr (.inr (.inl hshared))))]
  next hchecks =>
  simp only [not_or, Bool.not_eq_true] at hchecks
  dsimp only
  split
  next hentry =>
    refine .inl ⟨rfl, .inr (.inr (.inr (.inr (.inr ?_))))⟩
    unfold currentEntry
    dsimp only
    split_ifs with hzero
    · rfl
    · exact hentry.resolve_left hzero
  next hentry =>
  simp only [not_or, Bool.not_eq_false] at hentry
  have hcurrent : currentEntry address memory =
      memory.entry (getPageTable address memory) (memory.mode.tableIndex address) :=
    if_neg hentry.1
  rw [← hcurrent] at hentry ⊢
  refine .inr ⟨hentry.2, hchecks.2.2.2.2, clearMapping address (getPageTable address memory)
    (currentEntry address memory) memory, ⟨⟨?_, ?_, fun _ ↦ rfl⟩, ?_⟩, ?_⟩
  case refine_4 => split <;> rfl
  all_goals
    unfold clearMapping
    split <;> simp

/-- The table of a present page, and whose page it is. -/
theorem Isolated.role_of_present (h : Isolated memory role)
    (hpresent : (currentEntry address memory).present = true)
    (hregion : Isolated.OwnRegion memory.toPagingState memory.pageDirectory address) :
    role (getPageTable address memory) =
        some ⟨memory.pageDirectory, memory.mode.tablePath address⟩ ∧
      ((currentEntry address memory).user = true ↔
        memory.pageDirectory ≠ memory.kernelPageDirectory) := by
  obtain ⟨hne, hentry⟩ := getPageTable_eq_of_present hpresent
  have hrole := ((h.getPageTableFor_cases h.current hregion).resolve_left fun hzero ↦ hne hzero.1).2
  rw [hentry] at hpresent ⊢
  have hadmits := h.typed.admits _ _ _ hrole hpresent
  simp only [discipline, level_tablePath] at hadmits
  exact ⟨hrole, (hadmits (memory.mode.tableIndex_lt address)).1⟩

/-- The page of an own region is taken out of its table. -/
theorem UnmapStored.writes (hstored : UnmapStored address memory after) (h : Isolated memory role)
    (hpresent : (currentEntry address memory).present = true)
    (hregion : Isolated.OwnRegion memory.toPagingState memory.pageDirectory address) :
    Writes memory.pageDirectory address none memory role after
      (if (currentEntry address memory).user then
        Function.update role (currentEntry address memory).physical none
      else role) := by
  obtain ⟨hrole, hkind⟩ := h.role_of_present hpresent hregion
  have hpmm := hstored.pmm
  by_cases huser : (currentEntry address memory).user = true
  · rw [if_pos huser] at hpmm ⊢
    have hlinks := Isolated.links_table (level_tablePath memory.mode address)
      (memory.mode.tableIndex_lt address) (hkind.1 huser)
    have hchild : role (currentEntry address memory).physical =
        some ⟨memory.pageDirectory, memory.mode.path address⟩ := by
      obtain ⟨-, hentry⟩ := getPageTable_eq_of_present hpresent
      rw [hentry] at hpresent ⊢
      exact h.typed.down _ _ _ hrole hlinks hpresent
    have hmapped := h.page _ _ hchild (level_path memory.mode address)
    have hmarks : memory.pmm.Marks (currentEntry address memory).physical false after.pmm := by
      rw [hpmm]
      exact pmmReleaseUserBlock_marks hmapped
    have hisolated :=
      h.unmapUser hrole hchild (level_path memory.mode address) hstored.stores hmarks
    refine writes_of_stores h h.current hregion hrole hstored.stores hisolated hmarks.map
      hmarks.held hmarks.owned ?_
    intro frame place hplace
    rw [Isolated.update_none_eq_some]
    refine ⟨And.right, fun hbefore ↦ ⟨?_, hbefore⟩⟩
    rintro rfl
    exact hplace (Option.some.inj (hbefore.symm.trans hchild))
  · rw [if_neg huser] at hpmm ⊢
    have hkernel : memory.pageDirectory = memory.kernelPageDirectory :=
      not_not.1 fun hprivate ↦ huser (hkind.2 hprivate)
    have hisolated := h.rewriteKernel hstored.stores hpmm
      (fun _ ↦ role_getPageTable h address hkernel) (by simp)
    exact writes_of_rewrite h h.current hregion hrole hstored.stores hisolated hpmm

theorem Isolated.not_mapped (h : Isolated memory role) {frame : UInt32} {place : Place}
    (hrole : role frame = some place) (hlevel : memory.mode.level place.path ≠ .page) :
    ¬memory.pmm.Mapped frame := by
  intro hmapped
  obtain ⟨other, hother, hpage⟩ := h.mapped frame hmapped
  rw [hrole] at hother
  injection hother with hother
  exact hlevel (hother ▸ hpage)

/-- A page directory goes with its last table. -/
theorem reshapes_dropDirectory (h : Isolated memory role) (hmode : memory.mode = .pae)
    {directory : UInt32}
    (hrole : role directory = some ⟨memory.pageDirectory, [pdptIndex address]⟩) :
    ∃ roleAfter, Reshapes memory.pageDirectory address memory role
      (paeDropDirectory address directory memory) roleAfter ∧
      ∀ frame place, roleAfter frame = some place → role frame = some place := by
  unfold paeDropDirectory
  split
  · exact ⟨role, .refl h, fun _ _ hrole ↦ hrole⟩
  next hempty =>
  have hlevel : memory.mode.level [pdptIndex address] ≠ .page := by
    rw [hmode]
    simp [Mode.level]
  refine ⟨Function.update role directory none, ?_, fun frame place hafter ↦
    (Isolated.update_none_eq_some.1 hafter).2⟩
  refine reshapes_unlink h (h.typed.top _ h.current) hrole
    (Ram.tableInUse_eq_false.1 (by simpa using hempty)) ⟨?_, ?_, fun _ ↦ rfl⟩ ?_ (.inl ?_)
  · simp
  · simp
  · have hgives := pmmFreeBlock_gives (h.held _ _ hrole) (h.not_mapped hrole hlevel)
    simpa using hgives
  · rw [hmode]
    rfl

/-- A table whose last page is gone is given back, and maybe its directory. -/
theorem reshapes_dropTable (h : Isolated memory role) {table : UInt32}
    (hrole : role table = some ⟨memory.pageDirectory, memory.mode.tablePath address⟩)
    (hempty : memory.tableInUse table = false) :
    ∃ roleAfter, Reshapes memory.pageDirectory address memory role (dropTable address table memory)
      roleAfter ∧ roleAfter table = none ∧
      ∀ frame place, roleAfter frame = some place → role frame = some place := by
  obtain ⟨directory, hdirectory, -⟩ := h.typed.up table
    ⟨memory.pageDirectory, memory.mode.directoryPath address⟩ _ hrole
  have hdirectoryFor := h.directoryFor_eq h.current hdirectory
  let freed := ((memory.setEntry directory (memory.mode.directoryIndex address)
    .absent).flushTlb.onPmm (pmmFreeBlock table))
  have hlevel : memory.mode.level (memory.mode.tablePath address) ≠ .page := by
    simp
  have hstores : Stores memory directory (memory.mode.directoryIndex address) .absent freed :=
    ⟨by simp [freed], by simp [freed], fun _ ↦ rfl⟩
  have hgives : memory.pmm.Gives table freed.pmm := by
    have hgives := pmmFreeBlock_gives (h.held _ _ hrole) (h.not_mapped hrole hlevel)
    simpa [freed] using hgives
  have hfirst : Reshapes memory.pageDirectory address memory role freed
      (Function.update role table none) :=
    reshapes_unlink h hdirectory hrole (Ram.tableInUse_eq_false.1 hempty) hstores hgives
      (.inr ⟨level_tablePath memory.mode address, rfl⟩)
  have hkept : ∀ frame place, Function.update role table none frame = some place →
      role frame = some place := fun _ _ hafter ↦ (Isolated.update_none_eq_some.1 hafter).2
  cases hmode : memory.mode with
  | legacy =>
    have hdrop : dropTable address table memory = freed := by
      simp only [dropTable, hdirectoryFor, hmode, freed]
    rw [hdrop]
    exact ⟨_, hfirst, Function.update_self _ _ _, hkept⟩
  | pae =>
    have hdrop : dropTable address table memory = paeDropDirectory address directory freed := by
      simp only [dropTable, hdirectoryFor, hmode, freed]
    have hfreedMode : freed.mode = .pae := by
      rw [hfirst.state]
      exact hmode
    have hfreedRole : Function.update role table none directory =
        some ⟨freed.pageDirectory, [pdptIndex address]⟩ := by
      rw [Isolated.update_none_eq_some, hfirst.state]
      rw [hmode] at hdirectory
      refine ⟨?_, hdirectory⟩
      rintro rfl
      rw [hmode] at hrole
      rw [hrole] at hdirectory
      injection hdirectory with hdirectory
      injection hdirectory with _ hpath
      exact absurd hpath.symm (directoryPath_ne_tablePath .pae address address)
    obtain ⟨roleAfter, hsecond, hback⟩ :=
      reshapes_dropDirectory hfirst.isolated hfreedMode hfreedRole
    rw [hfirst.state] at hsecond
    rw [hdrop]
    refine ⟨roleAfter, ?_, ?_,
      fun frame place hafter ↦ hkept frame place (hback frame place hafter)⟩
    swap
    · by_contra hsome
      obtain ⟨place, hplace⟩ := Option.ne_none_iff_exists'.1 hsome
      have hgone := hback table place hplace
      rw [Function.update_self] at hgone
      cases hgone
    refine hfirst.trans hsecond ?_ ?_
    · intro frame hbefore _
      cases hmiddle : Function.update role table none frame with
      | none => rfl
      | some place =>
        rw [hkept frame place hmiddle] at hbefore
        cases hbefore
    · intro frame _ hafter hmiddle
      obtain ⟨place, hplace⟩ := Option.ne_none_iff_exists'.1 hafter
      rw [hback frame place hplace] at hmiddle
      cases hmiddle

/-- A table that has no other page than the one of an address. -/
def OnlyPage (root address : UInt32) (memory : Ram) : Prop :=
  ∀ place, memory.mode.tablePath place = memory.mode.tablePath address →
    memory.mode.path place ≠ memory.mode.path address → mappingOf root place memory = none

/-- A table is no longer in use when its only page is gone. -/
theorem OnlyPage.tableInUse_eq_false (honly : OnlyPage root address memory)
    (hroot : memory.IsRoot root) (hregion : Isolated.OwnRegion memory.toPagingState root address)
    (hwrites : Writes root address none memory role after roleAfter)
    (hrole : roleAfter table = some ⟨root, memory.mode.tablePath address⟩) :
    after.tableInUse table = false := by
  have hstate := hwrites.state
  rw [Ram.tableInUse_eq_false]
  intro slot hslot
  rw [hstate] at hslot
  obtain ⟨place, hplace⟩ := memory.mode.exists_path address hslot
  injection hplace with hindex hpath
  have hplaceRegion : Isolated.OwnRegion memory.toPagingState root place := by
    refine hregion.imp_right fun hinside ↦ ?_
    injection hpath with hdirectory hupper
    rw [← memory.mode.userRegion_iff, ← hdirectory, ← hupper, memory.mode.userRegion_iff] at hinside
    exact hinside
  have hnone : mappingOf root place after = none := by
    rw [hwrites.mappingOf_eq hroot hplaceRegion]
    split_ifs with hsame
    · rfl
    · exact honly place hpath fun heq ↦ hsame ⟨rfl, heq⟩
  by_contra hpresent
  rw [Bool.not_eq_false] at hpresent
  have hsome : mappingOf root place after = some (after.entry table slot) := by
    refine (hwrites.isolated.mappingOf_eq_some (by rw [hstate]; exact hroot)
      (by rw [hstate]; exact hplaceRegion)).2 ⟨table, ?_, ?_, hpresent⟩
    · rw [hstate, hpath]
      exact hrole
    · rw [hstate, hindex]
  rw [hnone] at hsome
  cases hsome

/-- A call that unmaps a page removes its mapping and then the tables that are empty. -/
theorem pagingUnmapPage_spec (h : Isolated memory role) (address : UInt32)
    (hcaller : UnmapsInOwnHalf address memory) :
    (pagingUnmapPage address memory = (0, memory) ∧ UnmapRefused address memory) ∨
    ∃ entry middle roleAfter, mappingOf memory.pageDirectory address memory = some entry ∧
      (pagingUnmapPage address memory).1 = entry.physical ∧
      Fitting memory.toPagingState address (if entry.user then pageFlagUser else 0) ∧
      Writes memory.pageDirectory address none memory role middle
        (if entry.user then Function.update role entry.physical none else role) ∧
      Reshapes memory.pageDirectory address middle
        (if entry.user then Function.update role entry.physical none else role)
        (pagingUnmapPage address memory).2 roleAfter ∧
      (∀ frame place, roleAfter frame = some place → role frame = some place) ∧
      ((pagingUnmapPage address memory).2 = middle ∧ ¬OnlyPage memory.pageDirectory address memory ∨
        tableOf memory.pageDirectory address (pagingUnmapPage address memory).2 = none) := by
  rcases pagingUnmapPage_cases address memory with
    hrefused | ⟨hpresent, -, middle, hstored, hresult⟩
  · exact .inl hrefused
  have htable := tableOf_isSome (getPageTable_eq_of_present hpresent).1
  have hregion : Isolated.OwnRegion memory.toPagingState memory.pageDirectory address := by
    rcases hcaller hpresent with ⟨huser, -⟩ | ⟨hkernel, -⟩
    · exact .inr ((h.user_directoryEntry h.current htable).1 huser).2
    · exact .inl hkernel
  obtain ⟨hrole, hkind⟩ := h.role_of_present hpresent hregion
  have hmapping : mappingOf memory.pageDirectory address memory =
      some (currentEntry address memory) := if_pos hpresent
  have hfit : Fitting memory.toPagingState address
      (if (currentEntry address memory).user then pageFlagUser else 0) := by
    by_cases huser : (currentEntry address memory).user = true
    · rw [if_pos huser]
      have hprivate := hkind.1 huser
      exact .inl ⟨by decide, hprivate, hregion.resolve_left hprivate⟩
    · rw [if_neg huser]
      exact .inr ⟨rfl, (hcaller hpresent).resolve_left fun hboth ↦ huser hboth.2⟩
  have hwrites := hstored.writes h hpresent hregion
  have hback : ∀ frame place, (if (currentEntry address memory).user then
      Function.update role (currentEntry address memory).physical none else role) frame =
      some place → role frame = some place := by
    intro frame place hafter
    split_ifs at hafter
    · exact (Isolated.update_none_eq_some.1 hafter).2
    · exact hafter
  have hmiddleRole := (hwrites.others (getPageTable address memory)
    ⟨memory.pageDirectory, memory.mode.tablePath address⟩
    fun hnode ↦ tablePath_ne_path _ _ _ (congrArg Node.path hnode)).2 hrole
  rw [hresult]
  by_cases huse : middle.tableInUse (getPageTable address memory) = true
  · rw [if_pos huse]
    refine .inr ⟨_, middle, _, hmapping, rfl, hfit, hwrites, .refl hwrites.isolated, hback,
      .inl ⟨rfl, fun honly ↦ ?_⟩⟩
    rw [honly.tableInUse_eq_false h.current hregion hwrites hmiddleRole] at huse
    cases huse
  · rw [if_neg huse]
    obtain ⟨roleAfter, hreshapes, hgone, hkept⟩ := reshapes_dropTable hwrites.isolated
      (by rw [hwrites.state]; exact hmiddleRole) (by simpa using huse)
    rw [hwrites.state] at hreshapes
    refine .inr ⟨_, middle, roleAfter, hmapping, rfl, hfit, hwrites, hreshapes,
      fun frame place hafter ↦ hback frame place (hkept frame place hafter), .inr ?_⟩
    -- the table that went was the one of the address
    have hstate := hreshapes.state.trans hwrites.state
    rcases hreshapes.isolated.directoryEntry_cases (by rw [hstate]; exact h.current)
      (by rw [hstate]; exact hregion) with ⟨habsent, -⟩ | ⟨-, hafter⟩
    · exact Entry.view_eq_none.2 habsent
    · have hbefore := hkept _ _ hafter
      rw [hstate] at hbefore
      rw [hwrites.isolated.typed.injective hbefore hmiddleRole, hgone] at hafter
      cases hafter

end

end EfesOS.Memory
