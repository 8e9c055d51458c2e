import EfesOS.Memory.AllocatorRuns
import EfesOS.Memory.Isolation

/-!
# Making and removing tables

`tableOf` and `mappingOf` say what a tree of page tables does with an address. Tables come and go
below them: `Reshapes` is what the making of empty tables and the removal of empty ones have in
common, that no mapping of any tree changes and that the frames outside the trees stay as they are.
-/

set_option autoImplicit false

namespace EfesOS.Memory

open EfesOS.Foundation.PageTree

/-- An entry, if it is present. -/
def Entry.view (entry : Entry) : Option Entry := if entry.present then some entry else none

variable {entry : Entry}

theorem Entry.view_eq_some {other : Entry} :
    entry.view = some other ↔ entry = other ∧ other.present = true := by
  unfold Entry.view
  split_ifs with hpresent
  · simp only [Option.some_inj]
    exact ⟨fun h ↦ ⟨h, h ▸ hpresent⟩, And.left⟩
  · refine ⟨by simp, ?_⟩
    rintro ⟨rfl, h⟩
    exact absurd h hpresent

theorem Entry.view_eq_none : entry.view = none ↔ entry.present = false := by
  unfold Entry.view
  split_ifs with hpresent <;> simp [hpresent]

/-- The present directory entry of an address in a tree. -/
def tableOf (root address : UInt32) (memory : Ram) : Option Entry :=
  (directoryEntryOf root address memory).view

/-- The present entry that maps an address in a tree. -/
def mappingOf (root address : UInt32) (memory : Ram) : Option Entry :=
  (leafOf root address memory).view

/-- A frame outside the trees that the allocator has handed out. -/
def Loose (memory : Ram) (role : UInt32 → Option Place) (frame : UInt32) : Prop :=
  memory.pmm.Held frame ∧ role frame = none

namespace Isolated

variable {memory : Ram} {role : UInt32 → Option Place} {root address frame : UInt32}
  {entry : Entry} {place : Place}

section

variable (h : Isolated memory role) (hroot : memory.IsRoot root)
include h hroot

omit hroot in
/-- The entry that is read through the frame at a place, if there is one. -/
theorem view_eq_some {table : UInt32} {path : List ℕ} {slot : ℕ}
    (hcases : (table = 0 ∧ ∀ frame, role frame ≠ some ⟨root, path⟩) ∨
      (table ≠ 0 ∧ role table = some ⟨root, path⟩)) :
    (if table = 0 then Entry.absent else memory.entry table slot).view = some entry ↔
      ∃ frame, role frame = some ⟨root, path⟩ ∧ memory.entry frame slot = entry ∧
        entry.present = true := by
  rw [Entry.view_eq_some]
  rcases hcases with ⟨hzero, hnone⟩ | ⟨hne, hrole⟩
  · rw [if_pos hzero]
    constructor
    · rintro ⟨rfl, hpresent⟩
      cases hpresent
    · rintro ⟨frame, hframe, -⟩
      exact absurd hframe (hnone frame)
  · rw [if_neg hne]
    constructor
    · rintro ⟨hentry, hpresent⟩
      exact ⟨_, hrole, hentry, hpresent⟩
    · rintro ⟨frame, hframe, hentry, hpresent⟩
      rw [h.typed.injective hrole hframe]
      exact ⟨hentry, hpresent⟩

theorem tableOf_eq_some :
    tableOf root address memory = some entry ↔
      ∃ frame, role frame = some ⟨root, memory.mode.directoryPath address⟩ ∧
        memory.entry frame (memory.mode.directoryIndex address) = entry ∧
        entry.present = true :=
  h.view_eq_some (h.directoryFor_cases hroot address)

/-- The table of an address in an own region. -/
theorem getPageTableFor_cases (hregion : OwnRegion memory.toPagingState root address) :
    (getPageTableFor root address memory = 0 ∧
      ∀ frame, role frame ≠ some ⟨root, memory.mode.tablePath address⟩) ∨
    (getPageTableFor root address memory ≠ 0 ∧
      role (getPageTableFor root address memory) =
        some ⟨root, memory.mode.tablePath address⟩) := by
  rw [getPageTableFor_eq]
  rcases h.directoryEntry_cases hroot hregion with ⟨habsent, hnone⟩ | ⟨hpresent, hrole⟩
  · rw [habsent]
    exact .inl ⟨rfl, hnone⟩
  · rw [hpresent, if_pos rfl]
    exact .inr ⟨(h.held _ _ hrole).ne_zero, hrole⟩

theorem mappingOf_eq_some (hregion : OwnRegion memory.toPagingState root address) :
    mappingOf root address memory = some entry ↔
      ∃ frame, role frame = some ⟨root, memory.mode.tablePath address⟩ ∧
        memory.entry frame (memory.mode.tableIndex address) = entry ∧ entry.present = true :=
  h.view_eq_some (h.getPageTableFor_cases hroot hregion)

end

end Isolated

variable {memory : Ram} {root address : UInt32}

theorem tableOf_eq_some_iff :
    tableOf root address memory = some entry ↔
    directoryFor root address memory ≠ 0 ∧
      memory.entry (directoryFor root address memory) (memory.mode.directoryIndex address) = entry ∧
      entry.present = true := by
  rw [tableOf, Entry.view_eq_some, directoryEntryOf]
  split_ifs with hzero
  · constructor
    · rintro ⟨rfl, hpresent⟩
      cases hpresent
    · exact fun hsome ↦ absurd hzero hsome.1
  · exact ⟨fun hsome ↦ ⟨hzero, hsome⟩, And.right⟩

/-- Trees with the same directory entry have the same table. -/
theorem getPageTableFor_of_tableOf {first second : UInt32} {before after : Ram}
    (htable : tableOf first address after = tableOf second address before) :
    getPageTableFor first address after = getPageTableFor second address before := by
  rw [getPageTableFor_eq, getPageTableFor_eq]
  unfold tableOf Entry.view at htable
  split_ifs at htable ⊢ with hafter hbefore hbefore
  · injection htable with htable
    rw [htable]
  · rfl

theorem mappingOf_eq_of_tableOf {first second : UInt32}
    (htable : tableOf first address memory = tableOf second address memory) :
    mappingOf first address memory = mappingOf second address memory := by
  unfold mappingOf leafOf
  rw [getPageTableFor_of_tableOf htable]

variable {role : UInt32 → Option Place}

section

variable {before after : Ram} (h : Isolated before role) (hroot : before.IsRoot root)
  (hmode : after.mode = before.mode)
include h hroot hmode

/-- Directory entries stay as they are where the roots and the directories do. -/
theorem tableOf_eq_of_frames
    (hframes : ∀ frame place, role frame = some place →
      before.mode.level place.path = .root ∨ before.mode.level place.path = .directory →
      after.frames frame = before.frames frame)
    (address : UInt32) :
    tableOf root address after = tableOf root address before := by
  have hentry : ∀ frame place, role frame = some place →
      before.mode.level place.path = .root ∨ before.mode.level place.path = .directory →
      ∀ index, after.entry frame index = before.entry frame index := fun frame place hrole hlevel ↦
    Ram.entry_congr hmode (hframes frame place hrole hlevel)
  have htop := h.typed.top root hroot
  have hdirectory : directoryFor root address after = directoryFor root address before := by
    unfold directoryFor
    rw [hmode]
    cases hformat : before.mode with
    | legacy => rfl
    | pae =>
      have hlevel : before.mode.level (Node.top root).path = .root := by rw [hformat]; rfl
      simp only [paePageDirectoryFor, hentry root _ htop (.inl hlevel)]
  unfold tableOf directoryEntryOf
  rw [hdirectory, hmode]
  rcases h.directoryFor_cases hroot address with ⟨hzero, -⟩ | ⟨hne, hrole⟩
  · simp only [hzero, if_true]
  · simp only [if_neg hne, hentry _ _ hrole (.inr (level_directoryPath _ _))]

/-- The mappings of an own region stay as they are where the tables do. -/
theorem mappingOf_eq_of_frames
    (hframes : ∀ frame place, role frame = some place → before.mode.level place.path ≠ .page →
      after.frames frame = before.frames frame)
    (hregion : Isolated.OwnRegion before.toPagingState root address) :
    mappingOf root address after = mappingOf root address before := by
  have htable : tableOf root address after = tableOf root address before := by
    refine tableOf_eq_of_frames h hroot hmode (fun frame place hrole hlevel ↦ ?_) address
    refine hframes frame place hrole ?_
    rcases hlevel with hlevel | hlevel <;> rw [hlevel] <;> simp
  unfold mappingOf leafOf
  rw [getPageTableFor_of_tableOf htable, hmode]
  dsimp only
  rcases h.getPageTableFor_cases hroot hregion with ⟨hzero, -⟩ | ⟨-, hrole⟩
  · rw [if_pos hzero, if_pos hzero]
  · rw [Ram.entry_congr hmode (hframes _ _ hrole (by rw [level_tablePath]; simp))]

end

variable {other : UInt32}

/-- The directory of an address is that of its table. -/
theorem directoryFor_congr
    (hpath : memory.mode.directoryPath address = memory.mode.directoryPath other) :
    directoryFor root address memory = directoryFor root other memory := by
  unfold directoryFor
  cases hmode : memory.mode with
  | legacy => rfl
  | pae =>
    rw [hmode] at hpath
    injection hpath with hupper
    rw [hupper]

theorem tableOf_congr (hpath : memory.mode.tablePath address = memory.mode.tablePath other) :
    tableOf root address memory = tableOf root other memory := by
  injection hpath with hindex hupper
  unfold tableOf directoryEntryOf
  rw [directoryFor_congr hupper, hindex]

/-- The mapping of an address is that of its page. -/
theorem mappingOf_congr (hpath : memory.mode.path address = memory.mode.path other) :
    mappingOf root address memory = mappingOf root other memory := by
  injection hpath with htable hrest
  injection hrest with hindex hupper
  unfold mappingOf leafOf getPageTableFor
  rw [directoryFor_congr hupper, hindex, htable]

/-- What the processor makes of an address: a frame and what may be done there. -/
structure Translation where
  frame : UInt32
  writable : Bool
  user : Bool
  executable : Bool
  deriving DecidableEq

/-- The walk of the processor through a tree. A right holds where both entries give it. -/
def translate (root address : UInt32) (memory : Ram) : Option Translation :=
  let directoryEntry := directoryEntryOf root address memory
  let entry := leafOf root address memory
  if directoryEntry.present && entry.present then
    some
      { frame := entry.physical
        writable := directoryEntry.writable && entry.writable
        user := directoryEntry.user && entry.user
        executable :=
          !(memory.paeNxEnabled && (directoryEntry.noExecute || entry.noExecute)) }
  else none

/-- Spaces with the same directory entry translate an address alike. -/
theorem translate_eq_of_tableOf {first second : UInt32}
    (htable : tableOf first address memory = tableOf second address memory) :
    translate first address memory = translate second address memory := by
  unfold tableOf Entry.view at htable
  unfold translate leafOf
  simp only [getPageTableFor_eq]
  split_ifs at htable with hfirst hsecond hsecond
  · injection htable with htable
    rw [htable]
  · simp [hfirst, hsecond]

/-- A present entry of a place is still there, and none came. -/
structure SameEntry (before : Ram) (role : UInt32 → Option Place) (after : Ram)
    (roleAfter : UInt32 → Option Place) (place : Place) (slot : ℕ) : Prop where
  kept : ∀ frame, role frame = some place → (before.entry frame slot).present = true →
    roleAfter frame = some place ∧ after.entry frame slot = before.entry frame slot
  back : ∀ frame, roleAfter frame = some place → (after.entry frame slot).present = true →
    role frame = some place ∧ after.entry frame slot = before.entry frame slot

namespace SameEntry

variable {before after : Ram} {role roleAfter : UInt32 → Option Place} {root address : UInt32}

theorem exists_iff {place : Place} {slot : ℕ} (h : SameEntry before role after roleAfter place slot)
    (entry : Entry) :
    (∃ frame, roleAfter frame = some place ∧ after.entry frame slot = entry ∧
      entry.present = true) ↔
    ∃ frame, role frame = some place ∧ before.entry frame slot = entry ∧
      entry.present = true := by
  constructor
  · rintro ⟨frame, hrole, rfl, hpresent⟩
    obtain ⟨hbefore, heq⟩ := h.back frame hrole hpresent
    exact ⟨frame, hbefore, heq.symm, hpresent⟩
  · rintro ⟨frame, hrole, rfl, hpresent⟩
    obtain ⟨hafter, heq⟩ := h.kept frame hrole hpresent
    exact ⟨frame, hafter, heq, hpresent⟩

section

variable (hbefore : Isolated before role) (hafter : Isolated after roleAfter)
  (hstate : after.toPagingState = before.toPagingState) (hroot : before.IsRoot root)
include hbefore hafter hstate hroot

theorem tableOf_eq
    (h : SameEntry before role after roleAfter ⟨root, before.mode.directoryPath address⟩
      (before.mode.directoryIndex address)) :
    tableOf root address after = tableOf root address before := by
  ext entry
  rw [hafter.tableOf_eq_some (by rw [hstate]; exact hroot), hbefore.tableOf_eq_some hroot, hstate]
  exact h.exists_iff entry

theorem mappingOf_eq (hregion : Isolated.OwnRegion before.toPagingState root address)
    (h : SameEntry before role after roleAfter ⟨root, before.mode.tablePath address⟩
      (before.mode.tableIndex address)) :
    mappingOf root address after = mappingOf root address before := by
  ext entry
  rw [hafter.mappingOf_eq_some (by rw [hstate]; exact hroot) (by rw [hstate]; exact hregion),
    hbefore.mappingOf_eq_some hroot hregion, hstate]
  exact h.exists_iff entry

end

end SameEntry

/-- Empty tables of one tree were made or removed on the way to an address. -/
structure Reshapes (root address : UInt32) (before : Ram) (role : UInt32 → Option Place)
    (after : Ram) (roleAfter : UInt32 → Option Place) : Prop where
  isolated : Isolated after roleAfter
  state : after.toPagingState = before.toPagingState
  map : before.pmm.SameMap after.pmm
  owned : ∀ frame, after.pmm.Owned frame ↔ before.pmm.Owned frame
  mapped : ∀ frame, after.pmm.Mapped frame ↔ before.pmm.Mapped frame
  others : ∀ frame place, place.root ≠ root ∨ before.mode.level place.path = .page →
    (roleAfter frame = some place ↔ role frame = some place)
  fresh : ∀ frame place, roleAfter frame = some place →
    role frame = some place ∨ place.root = root ∧ role frame = none ∧ ¬before.pmm.Held frame
  loose : ∀ frame, Loose after roleAfter frame ↔ Loose before role frame
  frames : ∀ frame, (role frame = none → roleAfter frame = none) →
    (∀ place, role frame = some place → place.root = root →
      before.mode.level place.path = .table ∨ before.mode.level place.path = .page) →
    after.frames frame = before.frames frame
  tables : ∀ other place, before.IsRoot other →
    other ≠ root ∨ before.mode.tablePath place ≠ before.mode.tablePath address →
    tableOf other place after = tableOf other place before
  mappings : ∀ other place, before.IsRoot other →
    Isolated.OwnRegion before.toPagingState other place →
    mappingOf other place after = mappingOf other place before

namespace Reshapes

variable {root address : UInt32} {before middle after : Ram}
  {role roleMiddle roleAfter : UInt32 → Option Place}

theorem refl (h : Isolated before role) : Reshapes root address before role before role where
  isolated := h
  state := rfl
  map := .refl _
  owned _ := Iff.rfl
  mapped _ := Iff.rfl
  others _ _ _ := Iff.rfl
  fresh _ _ hrole := .inl hrole
  loose _ := Iff.rfl
  frames _ _ _ := rfl
  tables _ _ _ _ := rfl
  mappings _ _ _ _ := rfl

/-- Two changes make one, if the second does not undo the first. -/
theorem trans (hfirst : Reshapes root address before role middle roleMiddle)
    (hsecond : Reshapes root address middle roleMiddle after roleAfter)
    (hnone : ∀ frame, role frame = none → roleAfter frame = none → roleMiddle frame = none)
    (hsome : ∀ frame, role frame ≠ none → roleAfter frame ≠ none → roleMiddle frame ≠ none) :
    Reshapes root address before role after roleAfter where
  isolated := hsecond.isolated
  state := hsecond.state.trans hfirst.state
  map := hfirst.map.trans hsecond.map
  owned frame := (hsecond.owned frame).trans (hfirst.owned frame)
  mapped frame := (hsecond.mapped frame).trans (hfirst.mapped frame)
  others frame place hplace := by
    rw [hsecond.others frame place (by rw [hfirst.state]; exact hplace),
      hfirst.others frame place hplace]
  fresh frame place hrole := by
    rcases hsecond.fresh frame place hrole with hmiddle | ⟨hroot, hmiddle, hfree⟩
    · exact hfirst.fresh frame place hmiddle
    cases hbefore : role frame with
    | none => exact .inr ⟨hroot, rfl, fun hheld ↦ hfree ((hfirst.loose frame).2 ⟨hheld, hbefore⟩).1⟩
    | some other =>
      have hafter : roleAfter frame ≠ none := by rw [hrole]; simp
      exact absurd hmiddle (hsome frame (by rw [hbefore]; simp) hafter)
  loose frame := (hsecond.loose frame).trans (hfirst.loose frame)
  frames frame hold hplace := by
    have hmiddle : role frame = none → roleMiddle frame = none :=
      fun h ↦ hnone frame h (hold h)
    rw [hsecond.frames frame, hfirst.frames frame hmiddle hplace]
    · intro hlost
      by_contra hkept
      cases hbefore : role frame with
      | none => exact hkept (hold hbefore)
      | some place => exact hsome frame (by rw [hbefore]; simp) hkept hlost
    · intro place hrole hroot
      rw [hfirst.state]
      rcases hfirst.fresh frame place hrole with hbefore | ⟨-, hbefore, -⟩
      · exact hplace place hbefore hroot
      · rw [hmiddle hbefore] at hrole
        cases hrole
  tables other place hother hplace := by
    rw [hsecond.tables other place, hfirst.tables other place hother hplace]
    · rw [hfirst.state]
      exact hother
    · rw [hfirst.state]
      exact hplace
  mappings other place hother hregion := by
    rw [hsecond.mappings other place, hfirst.mappings other place hother hregion]
    · rw [hfirst.state]
      exact hother
    · rw [hfirst.state]
      exact hregion

end Reshapes

section Reshape

variable {memory after : Ram} {role : UInt32 → Option Place} {root address parent child : UInt32}
  {slot : ℕ} {path : List ℕ} {entry : Entry} {pmm : Pmm}

/-- What hangs in a directory or root is a table or a directory. -/
theorem level_of_child (mode : Mode)
    (hlevel : mode.level (slot :: path) = .directory ∨ mode.level (slot :: path) = .table) :
    mode.level path = .root ∨ mode.level path = .directory := by
  rwa [level_cons, Level.below_eq_directory, Level.below_eq_table] at hlevel

/-- The slot that leads to an empty table or directory on the way to an address. -/
def OnTheWay (mode : Mode) (address : UInt32) (way : List ℕ) : Prop :=
  mode.level way = .directory ∨ mode.level way = .table ∧ way = mode.tablePath address

theorem OnTheWay.level (hway : OnTheWay memory.mode address (slot :: path)) :
    memory.mode.level path = .root ∨ memory.mode.level path = .directory :=
  level_of_child memory.mode (hway.imp_right And.left)

theorem OnTheWay.ne_page {mode : Mode} {way : List ℕ} (hway : OnTheWay mode address way) :
    mode.level way ≠ .page := by
  rcases hway with hlevel | ⟨hlevel, -⟩ <;> rw [hlevel] <;> simp

/-- Only the entry for the address itself is in the slot on the way to its table. -/
theorem OnTheWay.directory_ne (hway : OnTheWay memory.mode address (slot :: path))
    {other place : UInt32}
    (hplace : other ≠ root ∨ memory.mode.tablePath place ≠ memory.mode.tablePath address)
    (hnode : (⟨other, memory.mode.directoryPath place⟩ : Place) = ⟨root, path⟩) :
    memory.mode.directoryIndex place ≠ slot := by
  rintro rfl
  injection hnode with hroot hpath
  rw [← hpath] at hway
  rcases hway with hlevel | ⟨-, hway⟩
  · have htable := level_tablePath memory.mode place
    rw [Mode.tablePath, hlevel] at htable
    cases htable
  · exact hplace.elim (fun h ↦ h hroot) fun h ↦ h hway

theorem OnTheWay.table_ne (hway : OnTheWay memory.mode address (slot :: path))
    {other place : UInt32} : (⟨other, memory.mode.tablePath place⟩ : Place) ≠ ⟨root, path⟩ := by
  intro hnode
  injection hnode with _ hpath
  have hlevel := level_tablePath memory.mode place
  rcases hway.level with hup | hup <;> rw [hpath, hup] at hlevel <;> cases hlevel

section

variable (h : Isolated memory role) (hparent : role parent = some ⟨root, path⟩)
include h hparent

/-- A table or directory is hung into its tree on the way to an address. -/
theorem reshapes_link
    (hlinks : (discipline memory.toPagingState).links ⟨root, path⟩ slot)
    (habsent : (memory.entry parent slot).present = false)
    (htakes : memory.pmm.Takes child false pmm) (hpresent : entry.present = true)
    (hphysical : entry.physical = child)
    (hadmits : (discipline memory.toPagingState).admits ⟨root, path⟩ slot entry)
    (hnarrow : memory.mode = .legacy → entry.high = 0)
    (hway : OnTheWay memory.mode address (slot :: path)) :
    Reshapes root address memory role (Isolated.linked parent slot child entry pmm memory)
      (Function.update role child (some ⟨root, slot :: path⟩)) := by
  have hnone : role child = none := h.role_eq_none htakes.free
  have hisolated := h.link hparent hlinks habsent htakes hpresent hphysical hadmits hnarrow
    hway.ne_page
  have hne : child ≠ parent := by
    rintro rfl
    rw [hnone] at hparent
    cases hparent
  -- Everything else is as it was; only the slot itself leads to something new.
  have hsame : ∀ place index, ((⟨root, path⟩ : Place) = place → index ≠ slot) →
      SameEntry memory role (Isolated.linked parent slot child entry pmm memory)
        (Function.update role child (some ⟨root, slot :: path⟩)) place index := by
    refine fun place index helse ↦ ⟨?_, ?_⟩
    · intro frame hrole hentry
      refine ⟨(Typed.update_eq_some hnone).2 (.inr hrole), Isolated.entry_linked ?_ ?_⟩
      · rintro rfl
        rw [hnone] at hrole
        cases hrole
      · rintro ⟨rfl, rfl⟩
        rw [habsent] at hentry
        cases hentry
    · intro frame hrole hentry
      rcases (Typed.update_eq_some hnone).1 hrole with ⟨rfl, -⟩ | hbefore
      · rw [Isolated.entry_linked_fresh hne] at hentry
        cases hentry
      refine ⟨hbefore, Isolated.entry_linked ?_ ?_⟩
      · rintro rfl
        rw [hnone] at hbefore
        cases hbefore
      · rintro ⟨rfl, rfl⟩
        exact helse (Option.some.inj (hparent.symm.trans hbefore)) rfl
  refine ⟨hisolated, Isolated.toPagingState_linked, ?_, ?_, ?_, ?_, ?_, ?_, ?_, ?_, ?_⟩
  · rw [Isolated.pmm_linked]
    exact htakes.map
  · intro frame
    rw [Isolated.pmm_linked, htakes.owned]
    simp
  · intro frame
    rw [Isolated.pmm_linked, htakes.mapped]
  · intro frame place hplace
    rw [Typed.update_eq_some hnone]
    refine ⟨fun hrole ↦ hrole.resolve_left ?_, .inr⟩
    rintro ⟨-, rfl⟩
    exact hplace.elim (fun h ↦ h rfl) hway.ne_page
  · intro frame place hrole
    rcases (Typed.update_eq_some hnone).1 hrole with ⟨rfl, rfl⟩ | hbefore
    · exact .inr ⟨rfl, hnone, htakes.free⟩
    · exact .inl hbefore
  · intro frame
    unfold Loose
    rw [Isolated.pmm_linked, htakes.held, Function.update_apply]
    split_ifs with heq
    · subst heq
      simp [htakes.free]
    · simp [heq]
  · intro frame hold hplace
    refine Isolated.frames_linked ?_ ?_
    · rintro rfl
      rcases hplace _ hparent rfl with htable | htable <;> rcases hway.level with hup | hup <;>
        rw [hup] at htable <;> cases htable
    · rintro rfl
      have hlost := hold hnone
      rw [Function.update_self] at hlost
      cases hlost
  · intro other place hother hplace
    refine (hsame _ _ ?_).tableOf_eq h hisolated Isolated.toPagingState_linked hother
    exact fun hnode ↦ hway.directory_ne hplace hnode.symm
  · intro other place hother hregion
    refine (hsame _ _ ?_).mappingOf_eq h hisolated Isolated.toPagingState_linked hother hregion
    exact fun hnode ↦ absurd hnode.symm hway.table_ne

/-- A table or directory without entries is taken out of its tree. -/
theorem reshapes_unlink
    (hchild : role child = some ⟨root, slot :: path⟩)
    (hempty : ∀ index < memory.mode.slots, (memory.entry child index).present = false)
    (hstores : Stores memory parent slot .absent after)
    (hgives : memory.pmm.Gives child after.pmm)
    (hway : OnTheWay memory.mode address (slot :: path)) :
    Reshapes root address memory role after (Function.update role child none) := by
  have hisolated := h.unlink hparent hchild hway.ne_page hempty hstores hgives
  have hsame : ∀ place index, index < memory.mode.slots →
      ((⟨root, path⟩ : Place) = place → index ≠ slot) →
      SameEntry memory role after (Function.update role child none) place index := by
    refine fun place index hindex helse ↦ ⟨?_, ?_⟩
    · intro frame hrole hentry
      refine ⟨Isolated.update_none_eq_some.2 ⟨?_, hrole⟩, hstores.other ?_⟩
      · rintro rfl
        rw [hempty index hindex] at hentry
        cases hentry
      · rintro ⟨rfl, rfl⟩
        exact helse (Option.some.inj (hparent.symm.trans hrole)) rfl
    · intro frame hrole hentry
      refine ⟨(Isolated.update_none_eq_some.1 hrole).2, hstores.other ?_⟩
      rintro ⟨rfl, rfl⟩
      rw [hstores.self] at hentry
      cases hentry
  refine ⟨hisolated, hstores.state, hgives.map, ?_, hgives.mapped, ?_, ?_, ?_, ?_, ?_, ?_⟩
  · intro frame
    rw [hgives.owned]
    refine ⟨And.left, fun howned ↦ ⟨howned, ?_⟩⟩
    rintro rfl
    exact h.kernelOwned _ _ hchild hway.ne_page howned
  · intro frame place hplace
    rw [Isolated.update_none_eq_some]
    refine ⟨And.right, fun hrole ↦ ⟨?_, hrole⟩⟩
    rintro rfl
    rw [hchild] at hrole
    injection hrole with hrole
    subst hrole
    exact hplace.elim (fun h ↦ h rfl) hway.ne_page
  · exact fun frame place hrole ↦ .inl (Isolated.update_none_eq_some.1 hrole).2
  · intro frame
    unfold Loose
    rw [hgives.held, Function.update_apply]
    split_ifs with heq
    · subst heq
      simp [hchild]
    · simp [heq]
  · intro frame _ hplace
    refine hstores.frames_of_ne ?_
    rintro rfl
    rcases hplace _ hparent rfl with htable | htable <;> rcases hway.level with hup | hup <;>
      rw [hup] at htable <;> cases htable
  · intro other place hother hplace
    refine (hsame _ _ (memory.mode.directoryIndex_lt place) ?_).tableOf_eq h hisolated
      hstores.state hother
    exact fun hnode ↦ hway.directory_ne hplace hnode.symm
  · intro other place hother hregion
    refine (hsame _ _ (memory.mode.tableIndex_lt place) ?_).mappingOf_eq h hisolated
      hstores.state hother hregion
    exact fun hnode ↦ absurd hnode.symm hway.table_ne

end

end Reshape

/-! ### Finding or making a table -/

/-- How many frames are free below the limit of the tables. -/
def Pmm.tableRoom (pmm : Pmm) : ℕ :=
  ((Finset.range 1024).filter fun block ↦ pmm.bitmap block = false).card

/-- A frame for a table is found exactly when there is room, and then takes one place. -/
theorem pmmAllocBlockBelow_exact (pmm : Pmm) :
    pmmAllocBlockBelow lowIdentityLimit pmm = (0, pmm) ∧ pmm.tableRoom = 0 ∨
    ∃ frame after, pmmAllocBlockBelow lowIdentityLimit pmm = (frame, after) ∧
      pmm.Takes frame false after ∧ pmm.tableRoom = after.tableRoom + 1 := by
  have hallocates := pmmAllocBlockBelow_allocates lowIdentityLimit pmm
  rcases pmmAllocBlockBelow_cases lowIdentityLimit pmm with
    hfull | ⟨frame, after, halloc, htakes, -⟩
  · refine .inl ⟨hfull, ?_⟩
    rw [hfull] at hallocates
    rw [Pmm.tableRoom, Finset.card_eq_zero, Finset.filter_eq_empty_iff]
    intro free hlow hfree
    have hspec := pmm.free_spec free hfree
    have hlowNat : free < 1024 := Finset.mem_range.1 hlow
    have hminNat : 256 ≤ free := hspec.2.1
    refine (hallocates.full rfl).2 free ?_ ?_ ⟨hspec.1, hfree⟩
    · change 1048576 ≤ free * 4096
      omega
    · change (free + 1) * 4096 ≤ 4194304
      omega
  · refine .inr ⟨frame, after, halloc, htakes, ?_⟩
    rw [halloc] at hallocates
    obtain ⟨block, -, -, hbelow, -, hfree, hbitmap⟩ := hallocates.found htakes.nonzero
    have hbits : after.bitmap = Function.update pmm.bitmap block true := hbitmap
    have hlow : block < 1024 := by
      have hbelowNat : (block + 1) * 4096 ≤ 4194304 := hbelow
      omega
    have hset : ((Finset.range 1024).filter fun index ↦ pmm.bitmap index = false) =
        insert block ((Finset.range 1024).filter fun index ↦ after.bitmap index = false) := by
      ext index
      rw [Finset.mem_insert, Finset.mem_filter, Finset.mem_filter, hbits]
      by_cases heq : index = block
      · subst heq
        simp [hlow, hfree]
      · simp [heq]
    have hnotMem : block ∉
        (Finset.range 1024).filter fun index ↦ after.bitmap index = false := by
      rw [Finset.mem_filter, hbits, Function.update_self]
      rintro ⟨-, ⟨⟩⟩
    rw [Pmm.tableRoom, hset, Finset.card_insert_of_notMem hnotMem]
    rfl

/-- What `ensure_page_table` can do, and how much room it needs for that. -/
inductive Ensured (address flags : UInt32) (memory : Ram) : UInt32 → Ram → Prop
  | failed (hroom : tableOf memory.pageDirectory address memory = none →
        memory.pmm.tableRoom = 0) :
      Ensured address flags memory 0 memory
  | directoryOnly (directory : UInt32) (pmm : Pmm) (hmode : memory.mode = .pae)
      (hnone : directoryFor memory.pageDirectory address memory = 0)
      (htakes : memory.pmm.Takes directory false pmm) (hroom : memory.pmm.tableRoom = 1) :
      Ensured address flags memory 0 (Isolated.linked memory.pageDirectory (pdptIndex address)
        directory (directoryEntry directory) pmm memory)
  | found (directory : UInt32)
      (hdirectory : directoryFor memory.pageDirectory address memory = directory)
      (hne : directory ≠ 0)
      (hpresent : (memory.entry directory (memory.mode.directoryIndex address)).present = true) :
      Ensured address flags memory
        (memory.entry directory (memory.mode.directoryIndex address)).physical
        (if flags &&& pageFlagUser ≠ 0 then
          memory.setEntry directory (memory.mode.directoryIndex address)
            (memory.entry directory (memory.mode.directoryIndex address)).withUser
        else memory)
  | made (directory table : UInt32) (pmm : Pmm)
      (hdirectory : directoryFor memory.pageDirectory address memory = directory)
      (hne : directory ≠ 0)
      (habsent : (memory.entry directory (memory.mode.directoryIndex address)).present = false)
      (htakes : memory.pmm.Takes table false pmm) (hroom : 0 < memory.pmm.tableRoom) :
      Ensured address flags memory table (Isolated.linked directory
        (memory.mode.directoryIndex address) table (tableEntry table flags) pmm memory)
  | madeBoth (directory table : UInt32) (pmm next : Pmm) (hmode : memory.mode = .pae)
      (hnone : directoryFor memory.pageDirectory address memory = 0)
      (htakes : memory.pmm.Takes directory false pmm) (hnext : pmm.Takes table false next)
      (hroom : 1 < memory.pmm.tableRoom) :
      Ensured address flags memory table (Isolated.linked directory
        (memory.mode.directoryIndex address) table (tableEntry table flags) next
        (Isolated.linked memory.pageDirectory (pdptIndex address) directory
          (directoryEntry directory) pmm memory))

theorem ensureTableIn_cases (directory address flags : UInt32) (memory : Ram) :
    (ensureTableIn directory address flags memory = (0, memory) ∧
      ((memory.entry directory (memory.mode.directoryIndex address)).present = false →
        memory.pmm.tableRoom = 0)) ∨
    ((memory.entry directory (memory.mode.directoryIndex address)).present = true ∧
      ensureTableIn directory address flags memory =
        ((memory.entry directory (memory.mode.directoryIndex address)).physical,
          if flags &&& pageFlagUser ≠ 0 then
            memory.setEntry directory (memory.mode.directoryIndex address)
              (memory.entry directory (memory.mode.directoryIndex address)).withUser
          else memory)) ∨
    ((memory.entry directory (memory.mode.directoryIndex address)).present = false ∧
      0 < memory.pmm.tableRoom ∧ ∃ table pmm, memory.pmm.Takes table false pmm ∧
        ensureTableIn directory address flags memory =
          (table, Isolated.linked directory (memory.mode.directoryIndex address) table
            (tableEntry table flags) pmm memory)) := by
  unfold ensureTableIn
  dsimp only
  by_cases hpresent :
      (memory.entry directory (memory.mode.directoryIndex address)).present = true
  · have hnot : (memory.entry directory (memory.mode.directoryIndex address)).present = false →
        memory.pmm.tableRoom = 0 := fun habsent ↦ by cases hpresent.symm.trans habsent
    rw [if_pos hpresent]
    by_cases hshared : usesSharedKernelTable address memory = true
    · exact .inl ⟨if_pos hshared, hnot⟩
    rw [if_neg hshared]
    by_cases huser : flags &&& pageFlagUser ≠ 0
    · rw [if_pos huser, if_pos huser]
      split
      · exact .inr (.inl ⟨hpresent, rfl⟩)
      · exact .inl ⟨rfl, hnot⟩
    · rw [if_neg huser, if_neg huser]
      exact .inr (.inl ⟨hpresent, rfl⟩)
  · rw [if_neg hpresent]
    rcases pmmAllocBlockBelow_exact memory.pmm with
      ⟨hfull, hroom⟩ | ⟨table, pmm, halloc, htakes, hroom⟩
    · rw [hfull]
      exact .inl ⟨if_pos rfl, fun _ ↦ hroom⟩
    · rw [halloc]
      refine .inr (.inr ⟨Bool.not_eq_true _ ▸ hpresent, by omega, table, pmm, htakes, ?_⟩)
      rw [if_neg htakes.nonzero]
      rfl

/-- In a page directory that is there, a table is found or made. -/
theorem ensured_ensureTableIn {directory : UInt32}
    (hdirectory : directoryFor memory.pageDirectory address memory = directory)
    (hne : directory ≠ 0) (flags : UInt32) :
    Ensured address flags memory (ensureTableIn directory address flags memory).1
      (ensureTableIn directory address flags memory).2 := by
  rcases ensureTableIn_cases directory address flags memory with
    ⟨heq, hroom⟩ | ⟨hpresent, heq⟩ | ⟨habsent, hroom, table, pmm, htakes, heq⟩
  all_goals rw [heq]
  · refine .failed fun hnone ↦ hroom ?_
    rw [tableOf, Entry.view_eq_none, directoryEntryOf, hdirectory, if_neg hne] at hnone
    exact hnone
  · exact .found directory hdirectory hne hpresent
  · exact .made directory table pmm hdirectory hne habsent htakes hroom

theorem Isolated.fresh_ne {parent child : UInt32} {place : Place} {owned : Bool} {pmm : Pmm}
    (h : Isolated memory role) (hrole : role parent = some place)
    (htakes : memory.pmm.Takes child owned pmm) : child ≠ parent := by
  rintro rfl
  exact htakes.free (h.held _ _ hrole)

theorem ensured_ensurePageTable (h : Isolated memory role) (address flags : UInt32) :
    Ensured address flags memory (ensurePageTable address flags memory).1
      (ensurePageTable address flags memory).2 := by
  cases hmode : memory.mode with
  | legacy =>
    have hdirectory : directoryFor memory.pageDirectory address memory = memory.pageDirectory := by
      rw [directoryFor, hmode]
    rw [ensurePageTable, hmode]
    exact ensured_ensureTableIn hdirectory (h.root_ne_zero h.current) flags
  | pae =>
    have hdirectory : directoryFor memory.pageDirectory address memory =
        paePageDirectoryFor memory.pageDirectory (pdptIndex address) memory := by
      rw [directoryFor, hmode]
    rw [ensurePageTable, hmode]
    dsimp only
    rw [paeEnsurePageTable, paeEnsureDirectory]
    by_cases hne : paePageDirectoryFor memory.pageDirectory (pdptIndex address) memory ≠ 0
    · rw [if_pos hne]
      dsimp only
      rw [if_neg hne]
      exact ensured_ensureTableIn hdirectory hne flags
    · have hzero := hdirectory.trans (not_not.1 hne)
      rw [if_neg hne]
      rcases pmmAllocBlockBelow_exact memory.pmm with
        ⟨hfull, hroom⟩ | ⟨directory, pmm, halloc, htakes, hroom⟩
      · rw [hfull]
        exact .failed fun _ ↦ hroom
      rw [halloc]
      dsimp only
      rw [if_neg htakes.nonzero]
      rw [if_neg htakes.nonzero]
      -- The directory was just made and has no entry for the address.
      let grown := Isolated.linked memory.pageDirectory (pdptIndex address) directory
        (directoryEntry directory) pmm memory
      have hempty : ∀ index, grown.entry directory index = .absent :=
        Isolated.entry_linked_fresh (h.fresh_ne (h.typed.top _ h.current) htakes)
      have hgrownMode : grown.mode = memory.mode := by rw [Isolated.toPagingState_linked]
      have hgrownPmm : grown.pmm = pmm := Isolated.pmm_linked
      change Ensured address flags memory (ensureTableIn directory address flags grown).1
        (ensureTableIn directory address flags grown).2
      rcases ensureTableIn_cases directory address flags grown with
        ⟨heq, hnext⟩ | ⟨hpresent, -⟩ | ⟨-, hleft, table, next, hnext, heq⟩
      · rw [hempty, hgrownPmm] at hnext
        rw [heq]
        exact .directoryOnly directory pmm hmode hzero htakes (by rw [hroom, hnext rfl])
      · rw [hempty] at hpresent
        cases hpresent
      · rw [heq, hgrownMode]
        rw [hgrownPmm] at hnext hleft
        exact .madeBoth directory table pmm next hmode hzero htakes hnext (by omega)

/-- A mapping of the kind its tree is for: the user's in a process, the kernel's in its own half. -/
def Fitting (state : PagingState) (address flags : UInt32) : Prop :=
  flags &&& pageFlagUser ≠ 0 ∧ state.pageDirectory ≠ state.kernelPageDirectory ∧
      userMappingMin ≤ address ∧ address < userAddressLimit ∨
    flags &&& pageFlagUser = 0 ∧ state.pageDirectory = state.kernelPageDirectory ∧
      userAddressLimit ≤ address

section Ensure

variable {memory after : Ram} {role : UInt32 → Option Place} {address flags table : UInt32}

section

variable (hfit : Fitting memory.toPagingState address flags)
include hfit

theorem Fitting.ownRegion :
    Isolated.OwnRegion memory.toPagingState memory.pageDirectory address :=
  hfit.elim (fun h ↦ .inr h.2.2) fun h ↦ .inl h.2.1

theorem Fitting.user_iff :
    flags &&& pageFlagUser ≠ 0 ↔ memory.pageDirectory ≠ memory.kernelPageDirectory := by
  rcases hfit with ⟨huser, hne, -⟩ | ⟨huser, heq, -⟩
  · exact iff_of_true huser hne
  · exact iff_of_false (not_not.2 huser) (not_not.2 heq)

theorem Fitting.region_iff :
    memory.pageDirectory ≠ memory.kernelPageDirectory ↔
      userMappingMin ≤ address ∧ address < userAddressLimit := by
  rcases hfit with ⟨-, hne, hregion⟩ | ⟨-, heq, hlimit⟩
  · exact iff_of_true hne hregion
  · exact iff_of_false (not_not.2 heq) fun h ↦ absurd h.2 (UInt32.not_lt.2 hlimit)

/-- The entry of a new table is of the kind its directory asks for. -/
theorem Fitting.admits_table (haligned : Aligned table) :
    (discipline memory.toPagingState).admits
      ⟨memory.pageDirectory, memory.mode.directoryPath address⟩
      (memory.mode.directoryIndex address) (tableEntry table flags) := by
  simp only [discipline, level_directoryPath]
  intro _
  rw [user_tableEntry haligned, decide_eq_true_eq, hfit.user_iff, memory.mode.userRegion_iff]
  have hregion := hfit.region_iff
  refine ⟨⟨fun hne ↦ ⟨hne, hregion.1 hne⟩, And.left⟩, fun heq huser ↦ ?_⟩
  exact hregion.2 huser heq

end

section

variable (h : Isolated memory role)
include h

/-- Nothing but the record of actions differs. -/
theorem reshapes_of_same {root : UInt32}
    (hstate : after.toPagingState = memory.toPagingState) (hpmm : after.pmm = memory.pmm)
    (hframes : after.frames = memory.frames) : Reshapes root address memory role after role := by
  have hisolated : Isolated after role := by
    refine h.elsewhere hstate ?_ ?_ ?_ ?_
    · exact fun frame _ _ _ ↦ congrFun hframes frame
    all_goals rw [hpmm]
    · exact h.held
    · exact fun _ _ hkernel ↦ hkernel
    · exact fun _ ↦ Iff.rfl
  have hsame : after = { memory with actions := after.actions } := by
    cases after
    cases hstate
    cases hpmm
    cases hframes
    rfl
  rw [hsame] at hisolated ⊢
  exact ⟨hisolated, rfl, .refl _, fun _ ↦ Iff.rfl, fun _ ↦ Iff.rfl, fun _ _ _ ↦ Iff.rfl,
    fun _ _ hrole ↦ .inl hrole, fun _ ↦ Iff.rfl, fun _ _ _ ↦ rfl, fun _ _ _ _ ↦ rfl,
    fun _ _ _ _ ↦ rfl⟩

/-- Where there is no page directory, the root of the three-level format has no entry. -/
theorem Isolated.pdpt_absent {root : UInt32} (hroot : memory.IsRoot root)
    (hmode : memory.mode = .pae) (hzero : directoryFor root address memory = 0) :
    (memory.entry root (pdptIndex address)).present = false := by
  by_contra hnot
  have hpresent : (memory.entry root (pdptIndex address)).present = true := by simpa using hnot
  have hlinks : (discipline memory.toPagingState).links (.top root) (pdptIndex address) := by
    simp only [discipline, hmode]
    exact pdptIndex_lt address
  have hrole := h.typed.down root _ _ (h.typed.top root hroot) hlinks hpresent
  rcases h.directoryFor_cases hroot address with ⟨-, hnone⟩ | ⟨hne, -⟩
  · rw [hmode] at hnone
    exact hnone _ hrole
  · exact hne hzero

/-- The page directory that was missing is made. -/
theorem reshapes_directory {directory : UInt32} {pmm : Pmm}
    (hmode : memory.mode = .pae)
    (hnone : directoryFor memory.pageDirectory address memory = 0)
    (htakes : memory.pmm.Takes directory false pmm) :
    Reshapes memory.pageDirectory address memory role
      (Isolated.linked memory.pageDirectory (pdptIndex address) directory
        (directoryEntry directory) pmm memory)
      (Function.update role directory (some ⟨memory.pageDirectory, [pdptIndex address]⟩)) := by
  refine reshapes_link h (h.typed.top _ h.current) ?_ (h.pdpt_absent h.current hmode hnone) htakes
    (present_directoryEntry directory) (physical_directoryEntry htakes.aligned) ?_
    (fun _ ↦ rfl) ?_
  · simp only [discipline, hmode]
    exact pdptIndex_lt address
  · simp only [discipline, hmode]
    trivial
  · rw [hmode]
    exact .inl rfl

/-- A table is made in the page directory of an address. -/
theorem reshapes_table {directory : UInt32} {pmm : Pmm}
    (hfit : Fitting memory.toPagingState address flags)
    (hrole : role directory = some ⟨memory.pageDirectory, memory.mode.directoryPath address⟩)
    (habsent : (memory.entry directory (memory.mode.directoryIndex address)).present = false)
    (htakes : memory.pmm.Takes table false pmm) :
    Reshapes memory.pageDirectory address memory role
      (Isolated.linked directory (memory.mode.directoryIndex address) table
        (tableEntry table flags) pmm memory)
      (Function.update role table
        (some ⟨memory.pageDirectory, memory.mode.tablePath address⟩)) :=
  reshapes_link h hrole (Isolated.links_directory hfit.ownRegion) habsent htakes
    (present_tableEntry table flags) (physical_tableEntry htakes.aligned flags)
    (hfit.admits_table htakes.aligned) (fun _ ↦ rfl)
    (.inr ⟨level_tablePath memory.mode address, rfl⟩)

end

section

variable (h : Isolated memory role) (hfit : Fitting memory.toPagingState address flags)
  (hne : directoryFor memory.pageDirectory address memory ≠ 0)
  (hpresent : (memory.entry (directoryFor memory.pageDirectory address memory)
    (memory.mode.directoryIndex address)).present = true)
include h hfit hne hpresent

/-- Where a table is found, memory stays as it is: the bit of the user is set already. -/
theorem frames_found :
    (if flags &&& pageFlagUser ≠ 0 then
      memory.setEntry (directoryFor memory.pageDirectory address memory)
        (memory.mode.directoryIndex address)
        (memory.entry (directoryFor memory.pageDirectory address memory)
          (memory.mode.directoryIndex address)).withUser
      else memory).frames = memory.frames := by
  have hentry := directoryEntryOf_eq hne
  have hsome : (directoryEntryOf memory.pageDirectory address memory).present = true := by
    rw [hentry]
    exact hpresent
  by_cases huser : flags &&& pageFlagUser ≠ 0
  · have hprivate := hfit.user_iff.1 huser
    have hmarked := (h.user_directoryEntry h.current hsome).2
      ⟨hprivate, hfit.region_iff.1 hprivate⟩
    rw [hentry] at hmarked
    rw [if_pos huser, withUser_of_user hmarked]
    exact Ram.frames_setEntry_self _ _
  · rw [if_neg huser]

/-- A table that is found changes no place. -/
theorem reshapes_found :
    Reshapes memory.pageDirectory address memory role
      (if flags &&& pageFlagUser ≠ 0 then
        memory.setEntry (directoryFor memory.pageDirectory address memory)
          (memory.mode.directoryIndex address)
          (memory.entry (directoryFor memory.pageDirectory address memory)
            (memory.mode.directoryIndex address)).withUser
        else memory) role ∧
      role (memory.entry (directoryFor memory.pageDirectory address memory)
        (memory.mode.directoryIndex address)).physical =
          some ⟨memory.pageDirectory, memory.mode.tablePath address⟩ := by
  have hentry := directoryEntryOf_eq hne
  refine ⟨reshapes_of_same h ?_ ?_ (frames_found h hfit hne hpresent), ?_⟩
  · split_ifs
    · exact Ram.toPagingState_setEntry _ _ _
    · rfl
  · split_ifs
    · exact Ram.pmm_setEntry _ _ _
    · rfl
  · rcases h.directoryEntry_cases h.current hfit.ownRegion with ⟨habsent, -⟩ | ⟨-, hrole⟩
    · rw [hentry, hpresent] at habsent
      cases habsent
    · rw [hentry] at hrole
      exact hrole

end

/-- Finding or making the table of an address changes no mapping. -/
theorem Ensured.reshapes (hensured : Ensured address flags memory table after)
    (h : Isolated memory role) (hfit : Fitting memory.toPagingState address flags) :
    ∃ roleAfter, Reshapes memory.pageDirectory address memory role after roleAfter ∧
      (table = 0 ∨ roleAfter table =
        some ⟨memory.pageDirectory, memory.mode.tablePath address⟩) := by
  cases hensured with
  | failed => exact ⟨role, .refl h, .inl rfl⟩
  | directoryOnly directory pmm hmode hnone htakes =>
    exact ⟨_, reshapes_directory h hmode hnone htakes, .inl rfl⟩
  | found directory hdirectory hne hpresent =>
    subst hdirectory
    obtain ⟨hreshapes, hrole⟩ := reshapes_found h hfit hne hpresent
    exact ⟨role, hreshapes, .inr hrole⟩
  | made directory table pmm hdirectory hne habsent htakes =>
    subst hdirectory
    have hrole := h.role_directoryFor h.current hne
    exact ⟨_, reshapes_table h hfit hrole habsent htakes, .inr (Function.update_self _ _ _)⟩
  | madeBoth directory table pmm next hmode hnone htakes hnext =>
    have hfirst := reshapes_directory h hmode hnone htakes
    have hstate := hfirst.state
    have hcurrentNe := h.fresh_ne (h.typed.top _ h.current) htakes
    let grown := Isolated.linked memory.pageDirectory (pdptIndex address) directory
      (directoryEntry directory) pmm memory
    have hgrownFit : Fitting grown.toPagingState address flags := by
      rw [hstate]
      exact hfit
    have hgrownRole : Function.update role directory
        (some ⟨memory.pageDirectory, [pdptIndex address]⟩) directory =
        some ⟨grown.pageDirectory, grown.mode.directoryPath address⟩ := by
      rw [Function.update_self, hstate, hmode]
      rfl
    have hgrownEntry :
        (grown.entry directory (grown.mode.directoryIndex address)).present = false := by
      rw [Isolated.entry_linked_fresh hcurrentNe]
      rfl
    have hgrownTakes : grown.pmm.Takes table false next := by
      rw [Isolated.pmm_linked]
      exact hnext
    have hsecond := reshapes_table hfirst.isolated hgrownFit hgrownRole hgrownEntry hgrownTakes
    rw [hstate] at hsecond
    refine ⟨_, hfirst.trans hsecond ?_ ?_, .inr (Function.update_self _ _ _)⟩
    · intro frame _ hafter
      rw [Function.update_apply] at hafter
      split_ifs at hafter
      exact hafter
    · intro frame hbefore _
      rw [Function.update_apply]
      split_ifs
      · simp
      · exact hbefore

end Ensure

end EfesOS.Memory
