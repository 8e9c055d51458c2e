import EfesOS.Foundation.PageTree
import EfesOS.Memory.Entries

/-!
# The trees of page tables

The page tables of the kernel and of the processes are trees in the sense of
`EfesOS.Foundation.PageTree`: `discipline` says which entries lead to tables and pages of the same
tree and what bits they carry. In the tree of a process these are the entries of the user
regions, which belong to it alone; its other entries are copies of the kernel's and are never the
user's. In the tree of the kernel no entry is the user's and the user regions are empty.

`Isolated` adds the allocator: a table is a frame handed out to the kernel, and the pages of the
trees are exactly the frames marked as mapped.
-/

set_option autoImplicit false

namespace EfesOS.Memory

open EfesOS.Foundation.PageTree

/-! ### Levels -/

inductive Level where
  | root
  | directory
  | table
  | page
  deriving DecidableEq

/-- The level that a way from the root leads to. -/
def Mode.level : Mode → List ℕ → Level
  | .legacy, [] => .directory
  | .legacy, [_] => .table
  | .legacy, _ => .page
  | .pae, [] => .root
  | .pae, [_] => .directory
  | .pae, [_, _] => .table
  | .pae, _ => .page

/-- The level of what hangs in a place. -/
def Level.below : Level → Level
  | .root => .directory
  | .directory => .table
  | _ => .page

theorem Level.below_eq_directory {level : Level} : level.below = .directory ↔ level = .root := by
  cases level <;> decide

theorem Level.below_eq_table {level : Level} : level.below = .table ↔ level = .directory := by
  cases level <;> decide

section Levels

variable {mode : Mode} {path : List ℕ}

theorem level_cons (slot : ℕ) : mode.level (slot :: path) = (mode.level path).below := by
  cases mode <;> rcases path with _ | ⟨_, _ | ⟨_, _ | _⟩⟩ <;> rfl

theorem level_page_of_table (slot : ℕ) (hlevel : mode.level path = .table) :
    mode.level (slot :: path) = .page := by
  rw [level_cons, hlevel]
  rfl

theorem level_table_of_directory (slot : ℕ) (hlevel : mode.level path = .directory) :
    mode.level (slot :: path) = .table := by
  rw [level_cons, hlevel]
  rfl

theorem mode_of_level_root (hlevel : mode.level path = .root) : mode = .pae ∧ path = [] := by
  rcases path with _ | ⟨slot, rest⟩
  · cases mode with
    | legacy => cases hlevel
    | pae => exact ⟨rfl, rfl⟩
  · rw [level_cons] at hlevel
    generalize mode.level rest = level at hlevel
    cases level <;> cases hlevel

theorem mode_of_level_directory (hlevel : mode.level path = .directory) :
    mode = .legacy ∧ path = [] ∨ mode = .pae ∧ ∃ upper, path = [upper] := by
  rcases path with _ | ⟨upper, rest⟩
  · cases mode with
    | legacy => exact .inl ⟨rfl, rfl⟩
    | pae => cases hlevel
  · rw [level_cons, Level.below_eq_directory] at hlevel
    obtain ⟨rfl, rfl⟩ := mode_of_level_root hlevel
    exact .inr ⟨rfl, upper, rfl⟩

theorem exists_of_level_table (hlevel : mode.level path = .table) :
    ∃ slot rest, path = slot :: rest ∧ mode.level rest = .directory := by
  rcases path with _ | ⟨slot, rest⟩
  · cases mode <;> cases hlevel
  · rw [level_cons, Level.below_eq_table] at hlevel
    exact ⟨slot, rest, rfl, hlevel⟩

end Levels

@[simp] theorem level_directoryPath (mode : Mode) (address : UInt32) :
    mode.level (mode.directoryPath address) = .directory := by
  cases mode <;> rfl

@[simp] theorem level_tablePath (mode : Mode) (address : UInt32) :
    mode.level (mode.tablePath address) = .table := by
  cases mode <;> rfl

@[simp] theorem level_path (mode : Mode) (address : UInt32) :
    mode.level (mode.path address) = .page := by
  cases mode <;> rfl

abbrev Place := Node UInt32

/-- The frames from which trees start. -/
def PagingState.IsRoot (state : PagingState) (frame : UInt32) : Prop :=
  frame = state.kernelPageDirectory ∨ frame ∈ state.addressSpaces

/-- What the entries of each place are like. -/
def discipline (state : PagingState) : Discipline UInt32 Entry where
  present := Entry.present
  target := Entry.physical
  links place slot :=
    match state.mode.level place.path with
    | .root => slot < paePdpEntries
    | .directory => slot < state.mode.slots ∧
        (place.root = state.kernelPageDirectory ∨ state.mode.userRegion place.path slot)
    | .table => slot < state.mode.slots ∧ place.root ≠ state.kernelPageDirectory
    | .page => False
  admits place slot entry :=
    match state.mode.level place.path with
    | .root => True
    | .directory => slot < state.mode.slots → (entry.user = true ↔
        place.root ≠ state.kernelPageDirectory ∧ state.mode.userRegion place.path slot) ∧
        (place.root = state.kernelPageDirectory → ¬state.mode.userRegion place.path slot)
    | .table => slot < state.mode.slots → (entry.user = true ↔
        place.root ≠ state.kernelPageDirectory) ∧
        (entry.user = true → entry.writable = true → ¬entry.MayExecute state)
    | .page => True

/-- Trees that no process shares with another and none with the kernel. -/
structure Isolated (memory : Ram) (role : UInt32 → Option Place) : Prop where
  typed : Typed (discipline memory.toPagingState) memory.entry memory.IsRoot role
  held : ∀ frame place, role frame = some place → memory.pmm.Held frame
  kernelOwned : ∀ frame place, role frame = some place → memory.mode.level place.path ≠ .page →
    ¬memory.pmm.Owned frame
  page : ∀ frame place, role frame = some place → memory.mode.level place.path = .page →
    memory.pmm.Mapped frame
  mapped : ∀ frame, memory.pmm.Mapped frame →
    ∃ place, role frame = some place ∧ memory.mode.level place.path = .page
  current : memory.IsRoot memory.pageDirectory
  spaces : memory.addressSpaces.Nodup
  kernel : memory.kernelPageDirectory ∉ memory.addressSpaces

/-- The directory entry of an address in a tree. -/
def directoryEntryOf (root address : UInt32) (memory : Ram) : Entry :=
  let directory := directoryFor root address memory
  if directory = 0 then .absent
  else memory.entry directory (memory.mode.directoryIndex address)

/-- The entry that maps an address in a tree. -/
def leafOf (root address : UInt32) (memory : Ram) : Entry :=
  let table := getPageTableFor root address memory
  if table = 0 then .absent else memory.entry table (memory.mode.tableIndex address)

theorem directoryEntryOf_eq {root address : UInt32} {memory : Ram}
    (hne : directoryFor root address memory ≠ 0) :
    directoryEntryOf root address memory =
      memory.entry (directoryFor root address memory) (memory.mode.directoryIndex address) :=
  if_neg hne

theorem currentDirectoryEntry_eq (address : UInt32) (memory : Ram) :
    currentDirectoryEntry address memory = directoryEntryOf memory.pageDirectory address memory :=
  rfl

theorem currentEntry_eq (address : UInt32) (memory : Ram) :
    currentEntry address memory = leafOf memory.pageDirectory address memory := rfl

theorem getPageTableFor_eq (root address : UInt32) (memory : Ram) :
    getPageTableFor root address memory =
      if (directoryEntryOf root address memory).present then
        (directoryEntryOf root address memory).physical
      else 0 := by
  unfold getPageTableFor directoryEntryOf
  dsimp only
  split_ifs <;> simp_all

namespace Isolated

variable {memory : Ram} {role : UInt32 → Option Place} {root address frame : UInt32}

section

variable (h : Isolated memory role)
include h

theorem root_ne_zero (hroot : memory.IsRoot root) : root ≠ 0 :=
  (h.held root _ (h.typed.top root hroot)).ne_zero

/-- The page directory behind a slot of a root is the frame at its place. -/
theorem paePageDirectoryFor_cases (hmode : memory.mode = .pae)
    (hroot : memory.IsRoot root) {index : ℕ} (hindex : index < paePdpEntries) :
    (paePageDirectoryFor root index memory = 0 ∧ ∀ frame, role frame ≠ some ⟨root, [index]⟩) ∨
    (paePageDirectoryFor root index memory ≠ 0 ∧
      paePageDirectoryFor root index memory = (memory.entry root index).physical ∧
      role (paePageDirectoryFor root index memory) = some ⟨root, [index]⟩) := by
  have htop := h.typed.top root hroot
  have hlinks : (discipline memory.toPagingState).links (.top root) index := by
    simp only [discipline, hmode]
    exact hindex
  simp only [paePageDirectoryFor, h.root_ne_zero hroot, not_le.2 hindex, false_or]
  cases hpresent : (memory.entry root index).present with
  | false =>
    refine .inl ⟨if_pos rfl, fun frame hframe ↦ ?_⟩
    exact h.typed.role_ne_child htop hpresent hframe
  | true =>
    have hrole := h.typed.down root _ _ htop hlinks hpresent
    exact .inr ⟨(h.held _ _ hrole).ne_zero, rfl, hrole⟩

/-- The directory of an address is the frame at its place, if there is one. -/
theorem directoryFor_cases (hroot : memory.IsRoot root)
    (address : UInt32) :
    (directoryFor root address memory = 0 ∧
      ∀ frame, role frame ≠ some ⟨root, memory.mode.directoryPath address⟩) ∨
    (directoryFor root address memory ≠ 0 ∧
      role (directoryFor root address memory) =
        some ⟨root, memory.mode.directoryPath address⟩) := by
  unfold directoryFor
  cases hmode : memory.mode with
  | legacy => exact .inr ⟨h.root_ne_zero hroot, h.typed.top root hroot⟩
  | pae =>
    exact (h.paePageDirectoryFor_cases hmode hroot (pdptIndex_lt address)).imp_right
      fun hsome ↦ ⟨hsome.1, hsome.2.2⟩

theorem role_directoryFor (hroot : memory.IsRoot root)
    (hne : directoryFor root address memory ≠ 0) : role (directoryFor root address memory) =
      some ⟨root, memory.mode.directoryPath address⟩ :=
  ((h.directoryFor_cases hroot address).resolve_left fun hzero ↦ hne hzero.1).2

theorem directoryFor_eq (hroot : memory.IsRoot root)
    (hrole : role frame = some ⟨root, memory.mode.directoryPath address⟩) :
    directoryFor root address memory = frame := by
  rcases h.directoryFor_cases hroot address with ⟨-, hnone⟩ | ⟨-, hsome⟩
  · exact absurd hrole (hnone frame)
  · exact h.typed.injective hsome hrole

end

/-- The regions of a tree that are its own. -/
def OwnRegion (state : PagingState) (root address : UInt32) : Prop :=
  root = state.kernelPageDirectory ∨ userMappingMin ≤ address ∧ address < userAddressLimit

theorem links_table {path : List ℕ} {slot : ℕ} (hlevel : memory.mode.level path = .table)
    (hslot : slot < memory.mode.slots) (hprivate : root ≠ memory.kernelPageDirectory) :
    (discipline memory.toPagingState).links ⟨root, path⟩ slot := by
  simp only [discipline, hlevel]
  exact ⟨hslot, hprivate⟩

theorem links_directory (hregion : OwnRegion memory.toPagingState root address) :
    (discipline memory.toPagingState).links ⟨root, memory.mode.directoryPath address⟩
      (memory.mode.directoryIndex address) := by
  simp only [discipline, level_directoryPath]
  exact ⟨memory.mode.directoryIndex_lt address,
    hregion.imp_right (memory.mode.userRegion_iff address).2⟩

/-- The table of an address in an own region is the frame at its place. -/
theorem directoryEntry_cases (h : Isolated memory role) (hroot : memory.IsRoot root)
    (hregion : OwnRegion memory.toPagingState root address) :
    ((directoryEntryOf root address memory).present = false ∧
      ∀ frame, role frame ≠ some ⟨root, memory.mode.tablePath address⟩) ∨
    ((directoryEntryOf root address memory).present = true ∧
      role (directoryEntryOf root address memory).physical =
        some ⟨root, memory.mode.tablePath address⟩) := by
  unfold directoryEntryOf
  rcases h.directoryFor_cases hroot address with ⟨hzero, hnone⟩ | ⟨hne, hrole⟩
  · rw [if_pos hzero]
    refine .inl ⟨rfl, fun frame hframe ↦ ?_⟩
    obtain ⟨parent, hparent, -⟩ := h.typed.up frame
      ⟨root, memory.mode.directoryPath address⟩ _ hframe
    exact hnone parent hparent
  · rw [if_neg hne]
    cases hpresent : (memory.entry (directoryFor root address memory)
        (memory.mode.directoryIndex address)).present with
    | false => exact .inl ⟨rfl, fun frame hframe ↦ h.typed.role_ne_child hrole hpresent hframe⟩
    | true =>
      exact .inr ⟨rfl, h.typed.down _ _ _ hrole (links_directory hregion) hpresent⟩

/-- The bits of a directory entry. -/
theorem user_directoryEntry (h : Isolated memory role) (hroot : memory.IsRoot root)
    (hpresent : (directoryEntryOf root address memory).present = true) :
    (directoryEntryOf root address memory).user = true ↔
      root ≠ memory.kernelPageDirectory ∧ userMappingMin ≤ address ∧
        address < userAddressLimit := by
  unfold directoryEntryOf at hpresent ⊢
  rcases h.directoryFor_cases hroot address with ⟨hzero, -⟩ | ⟨hne, hrole⟩
  · rw [if_pos hzero] at hpresent
    cases hpresent
  · rw [if_neg hne] at hpresent ⊢
    have hadmits := h.typed.admits _ _ _ hrole hpresent
    simp only [discipline, level_directoryPath] at hadmits
    rw [(hadmits (memory.mode.directoryIndex_lt address)).1, memory.mode.userRegion_iff]

/-! ### Edits -/

/-- The allocator agrees with the places of the frames. -/
structure Agrees (mode : Mode) (pmm : Pmm) (role : UInt32 → Option Place) : Prop where
  held : ∀ frame place, role frame = some place → pmm.Held frame
  kernelOwned : ∀ frame place, role frame = some place → mode.level place.path ≠ .page →
    ¬pmm.Owned frame
  page : ∀ frame place, role frame = some place → mode.level place.path = .page →
    pmm.Mapped frame
  mapped : ∀ frame, pmm.Mapped frame →
    ∃ place, role frame = some place ∧ mode.level place.path = .page

theorem agrees (h : Isolated memory role) : Agrees memory.mode memory.pmm role :=
  ⟨h.held, h.kernelOwned, h.page, h.mapped⟩

/-- A table or directory in a frame that the kernel has taken. -/
theorem Agrees.takes {mode : Mode} {pmm pmm' : Pmm} {place : Place} (h : Agrees mode pmm role)
    (hnone : role frame = none) (htakes : pmm.Takes frame false pmm')
    (hlevel : mode.level place.path ≠ .page) :
    Agrees mode pmm' (Function.update role frame (some place)) := by
  refine ⟨fun other node hrole ↦ ?_, fun other node hrole hpage howned ↦ ?_,
    fun other node hrole hpage ↦ ?_, fun other hmapped ↦ ?_⟩
  · rw [htakes.held]
    rcases (Typed.update_eq_some hnone).1 hrole with ⟨heq, -⟩ | hbefore
    · exact .inr heq
    · exact .inl (h.held other node hbefore)
  · rcases (htakes.owned other).1 howned with howned | ⟨-, hfalse⟩
    · rcases (Typed.update_eq_some hnone).1 hrole with ⟨rfl, -⟩ | hbefore
      · exact htakes.free howned.held
      · exact h.kernelOwned other node hbefore hpage howned
    · cases hfalse
  · rw [htakes.mapped]
    rcases (Typed.update_eq_some hnone).1 hrole with ⟨-, rfl⟩ | hbefore
    · exact absurd hpage hlevel
    · exact h.page other node hbefore hpage
  · obtain ⟨node, hrole, hpage⟩ := h.mapped other ((htakes.mapped other).1 hmapped)
    exact ⟨node, (Typed.update_eq_some hnone).2 (.inr hrole), hpage⟩

/-- The invariant where only memory and the allocator changed. -/
theorem of_typed (h : Isolated memory role) {after : Ram} {roleAfter : UInt32 → Option Place}
    (hstate : after.toPagingState = memory.toPagingState)
    (htyped : Typed (discipline memory.toPagingState) after.entry memory.IsRoot roleAfter)
    (hagrees : Agrees memory.mode after.pmm roleAfter) : Isolated after roleAfter := by
  have hcurrent := h.current
  have hspaces := h.spaces
  have hkernel := h.kernel
  rw [← hstate] at htyped hagrees hcurrent hspaces hkernel
  exact ⟨htyped, hagrees.held, hagrees.kernelOwned, hagrees.page, hagrees.mapped, hcurrent, hspaces,
    hkernel⟩

variable {parent child physical : UInt32} {slot : ℕ} {place : Place} {entry : Entry} {pmm : Pmm}

/-- A frame that is not handed out has no place. -/
theorem role_eq_none (h : Isolated memory role) (hfree : ¬memory.pmm.Held frame) :
    role frame = none := by
  cases hrole : role frame with
  | none => rfl
  | some place => exact absurd (h.held frame place hrole) hfree

/-- Memory with a fresh frame, filled with a page, hung into a slot. -/
def grafted (parent : UInt32) (slot : ℕ) (physical : UInt32) (page : Page) (entry : Entry)
    (pmm : Pmm) (memory : Ram) : Ram :=
  ({ memory with pmm := pmm }.store physical page).setEntry parent slot entry

section Graft

variable {page : Page}

@[simp] theorem toPagingState_grafted :
    (grafted parent slot physical page entry pmm memory).toPagingState = memory.toPagingState := by
  simp [grafted]

@[simp] theorem pmm_grafted : (grafted parent slot physical page entry pmm memory).pmm = pmm := by
  simp [grafted]

theorem frames_grafted (hparent : frame ≠ parent) (hphysical : frame ≠ physical) :
    (grafted parent slot physical page entry pmm memory).frames frame = memory.frames frame := by
  rw [grafted, Ram.frames_setEntry_of_ne _ hparent, Ram.frames_store,
    Function.update_of_ne hphysical]

theorem entry_grafted {index : ℕ} (hphysical : frame ≠ physical)
    (hplace : ¬(frame = parent ∧ index = slot)) :
    (grafted parent slot physical page entry pmm memory).entry frame index =
      memory.entry frame index := by
  have hframe : ({ memory with pmm := pmm }.store physical page).frames frame =
      memory.frames frame := Function.update_of_ne hphysical _ _
  rw [grafted, Ram.entry_setEntry_of_ne _ hplace]
  exact Ram.entry_congr (by rfl) hframe index

theorem entry_grafted_self (hnarrow : memory.mode = .legacy → entry.high = 0) :
    (grafted parent slot physical page entry pmm memory).entry parent slot = entry :=
  Ram.entry_setEntry (by simpa using hnarrow)

theorem entry_grafted_fresh (hne : physical ≠ parent) (index : ℕ) :
    (grafted parent slot physical page entry pmm memory).entry physical index =
      memory.mode.entry page index := by
  rw [grafted, Ram.entry_setEntry_of_ne _ fun h ↦ hne h.1, Ram.entry, Ram.frames_store,
    Function.update_self]
  rfl

/-- Memory with a fresh, empty frame hung into a slot. -/
def linked (parent : UInt32) (slot : ℕ) (physical : UInt32) (entry : Entry) (pmm : Pmm)
    (memory : Ram) : Ram := grafted parent slot physical (fun _ ↦ 0) entry pmm memory

@[simp] theorem toPagingState_linked :
  (linked parent slot physical entry pmm memory).toPagingState =
    memory.toPagingState := toPagingState_grafted

@[simp] theorem pmm_linked : (linked parent slot physical entry pmm memory).pmm = pmm := pmm_grafted

theorem frames_linked (hparent : frame ≠ parent) (hphysical : frame ≠ physical) :
    (linked parent slot physical entry pmm memory).frames frame = memory.frames frame :=
  frames_grafted hparent hphysical

theorem entry_linked {index : ℕ} (hphysical : frame ≠ physical)
    (hplace : ¬(frame = parent ∧ index = slot)) :
    (linked parent slot physical entry pmm memory).entry frame index = memory.entry frame index :=
  entry_grafted hphysical hplace

theorem entry_zero (mode : Mode) (index : ℕ) : mode.entry (fun _ ↦ 0) index = .absent := by
  cases mode <;> rfl

theorem entry_linked_fresh (hne : physical ≠ parent) (index : ℕ) :
    (linked parent slot physical entry pmm memory).entry physical index = .absent := by
  rw [linked, entry_grafted_fresh hne, entry_zero]

variable (h : Isolated memory role) (hparent : role parent = some place)
  (hlinks : (discipline memory.toPagingState).links place slot)
  (habsent : (memory.entry parent slot).present = false)
  (htakes : memory.pmm.Takes physical false pmm) (hpresent : entry.present = true)
  (hphysical : entry.physical = physical)
  (hadmits : (discipline memory.toPagingState).admits place slot entry)
  (hnarrow : memory.mode = .legacy → entry.high = 0)
  (hlevel : memory.mode.level (slot :: place.path) ≠ .page)
include h hparent hlinks habsent htakes hpresent hphysical hadmits hnarrow hlevel

/-- A table or directory is hung into its tree, with entries that lead nowhere in it. -/
theorem graft (hpage : ∀ index, (memory.mode.entry page index).present = true →
      ¬(discipline memory.toPagingState).links (place.child slot) index ∧
        (discipline memory.toPagingState).admits (place.child slot) index
          (memory.mode.entry page index)) :
    Isolated (grafted parent slot physical page entry pmm memory)
      (Function.update role physical (some (place.child slot))) := by
  have hnone : role physical = none := h.role_eq_none htakes.free
  have hne : physical ≠ parent := by
    rintro rfl
    rw [hnone] at hparent
    cases hparent
  refine h.of_typed toPagingState_grafted ?_ ?_
  · refine h.typed.attach hparent hlinks habsent hnone ?_ ?_ ?_ ?_ ?_
    · rw [entry_grafted_self hnarrow]
      exact hpresent
    · rw [entry_grafted_self hnarrow]
      exact hphysical
    · rw [entry_grafted_self hnarrow]
      exact hadmits
    · intro frame other index hrole hplace
      refine entry_grafted ?_ hplace
      rintro rfl
      rw [hnone] at hrole
      cases hrole
    · intro index hindex
      rw [entry_grafted_fresh hne] at hindex ⊢
      exact hpage index hindex
  · rw [pmm_grafted]
    exact h.agrees.takes hnone htakes hlevel

/-- A table or directory without entries is hung into its tree. -/
theorem link :
    Isolated (linked parent slot physical entry pmm memory)
      (Function.update role physical (some (place.child slot))) := by
  refine h.graft hparent hlinks habsent htakes hpresent hphysical hadmits hnarrow hlevel ?_
  intro index hindex
  rw [entry_zero] at hindex
  cases hindex

end Graft

end Isolated

/-- One entry of memory was stored, and the allocator may have changed. -/
structure Stores (memory : Ram) (parent : UInt32) (slot : ℕ) (entry : Entry) (after : Ram) :
    Prop where
  state : after.toPagingState = memory.toPagingState
  frames : after.frames = (memory.setEntry parent slot entry).frames
  narrow : memory.mode = .legacy → entry.high = 0

namespace Stores

variable {memory after : Ram} {parent frame : UInt32} {slot index : ℕ} {entry : Entry}

section

variable (h : Stores memory parent slot entry after)
include h

theorem entry_eq (frame : UInt32) (index : ℕ) :
    after.entry frame index = (memory.setEntry parent slot entry).entry frame index :=
  Ram.entry_congr (by rw [h.state, Ram.toPagingState_setEntry]) (by rw [h.frames]) index

theorem self : after.entry parent slot = entry := by
  rw [h.entry_eq, Ram.entry_setEntry h.narrow]

theorem other (hplace : ¬(frame = parent ∧ index = slot)) :
    after.entry frame index = memory.entry frame index := by
  rw [h.entry_eq, Ram.entry_setEntry_of_ne _ hplace]

theorem frames_of_ne (hne : frame ≠ parent) :
    after.frames frame = memory.frames frame := by
  rw [h.frames, Ram.frames_setEntry_of_ne _ hne]

end

end Stores

namespace Isolated

variable {memory after : Ram} {role : UInt32 → Option Place} {parent child physical : UInt32}
  {slot : ℕ} {place : Place} {entry : Entry}

/-- An entry is stored that leads where the one before did, or that leads to no place. -/
theorem rewrite (h : Isolated memory role) (hstores : Stores memory parent slot entry after)
    (hpmm : after.pmm = memory.pmm)
    (hsame : ∀ place, role parent = some place →
      (discipline memory.toPagingState).links place slot →
      entry.present = (memory.entry parent slot).present ∧
        ((memory.entry parent slot).present = true →
          entry.physical = (memory.entry parent slot).physical))
    (hadmits : ∀ place, role parent = some place → entry.present = true →
      (discipline memory.toPagingState).admits place slot entry) : Isolated after role := by
  have hdecide : ∀ frame index, after.entry frame index =
      if frame = parent ∧ index = slot then entry else memory.entry frame index := by
    intro frame index
    split_ifs with hplace
    · rw [hplace.1, hplace.2, hstores.self]
    · exact hstores.other hplace
  refine h.of_typed hstores.state (h.typed.rewrite ?_ ?_) (hpmm ▸ h.agrees)
  · intro frame place index hrole hlinks
    rw [hdecide]
    split_ifs with hplace
    · obtain ⟨rfl, rfl⟩ := hplace
      exact hsame place hrole hlinks
    · exact ⟨rfl, fun _ ↦ rfl⟩
  · intro frame place index hrole hpresent
    rw [hdecide] at hpresent ⊢
    split_ifs at hpresent ⊢ with hplace
    · obtain ⟨rfl, rfl⟩ := hplace
      exact hadmits place hrole hpresent
    · exact h.typed.admits frame place index hrole hpresent

/-- A frame of a process becomes a page of a table. -/
theorem mapUser (h : Isolated memory role) (hparent : role parent = some place)
    (hlinks : (discipline memory.toPagingState).links place slot)
    (hlevel : memory.mode.level (slot :: place.path) = .page)
    (habsent : (memory.entry parent slot).present = false)
    (hstores : Stores memory parent slot entry after) (hpresent : entry.present = true)
    (hadmits : (discipline memory.toPagingState).admits place slot entry)
    (howned : memory.pmm.Owned entry.physical) (hmapped : ¬memory.pmm.Mapped entry.physical)
    (hmarks : memory.pmm.Marks entry.physical true after.pmm) :
    Isolated after (Function.update role entry.physical (some (place.child slot))) := by
  have hnone : role entry.physical = none := by
    cases hrole : role entry.physical with
    | none => rfl
    | some other =>
      by_cases hpage : memory.mode.level other.path = .page
      · exact absurd (h.page _ other hrole hpage) hmapped
      · exact absurd howned (h.kernelOwned _ other hrole hpage)
  have hleaf : (discipline memory.toPagingState).links (place.child slot) = fun _ ↦ False := by
    funext index
    simp only [discipline, Node.path_child, hlevel]
  refine h.of_typed hstores.state ?_ ⟨?_, ?_, ?_, ?_⟩
  · refine h.typed.attach hparent hlinks habsent hnone ?_ ?_ ?_ ?_ ?_
    · rw [hstores.self]
      exact hpresent
    · rw [hstores.self]
      rfl
    · rw [hstores.self]
      exact hadmits
    · exact fun frame other index _ hplace ↦ hstores.other hplace
    · intro index _
      refine ⟨by rw [hleaf]; exact not_false, ?_⟩
      simp only [discipline, Node.path_child, hlevel]
  · intro frame other hrole
    rw [hmarks.held]
    rcases (Typed.update_eq_some hnone).1 hrole with ⟨rfl, -⟩ | hbefore
    · exact howned.held
    · exact h.held frame other hbefore
  · intro frame other hrole hpage
    rw [hmarks.owned]
    rcases (Typed.update_eq_some hnone).1 hrole with ⟨-, rfl⟩ | hbefore
    · exact absurd hlevel hpage
    · exact h.kernelOwned frame other hbefore hpage
  · intro frame other hrole hpage
    rw [hmarks.mapped]
    rcases (Typed.update_eq_some hnone).1 hrole with ⟨heq, -⟩ | hbefore
    · exact .inl ⟨heq, rfl⟩
    · refine .inr ⟨?_, h.page frame other hbefore hpage⟩
      rintro rfl
      rw [hnone] at hbefore
      cases hbefore
  · intro frame hframe
    rcases (hmarks.mapped frame).1 hframe with ⟨rfl, -⟩ | ⟨-, hbefore⟩
    · exact ⟨_, Function.update_self _ _ _, hlevel⟩
    · obtain ⟨other, hrole, hpage⟩ := h.mapped frame hbefore
      exact ⟨other, (Typed.update_eq_some hnone).2 (.inr hrole), hpage⟩

theorem update_none_eq_some {frame : UInt32} {other : Place} :
    Function.update role child none frame = some other ↔ frame ≠ child ∧
      role frame = some other := by
  rw [Function.update_apply]
  split_ifs with heq <;> simp [heq]

section

variable (h : Isolated memory role) (hparent : role parent = some place)
  (hchild : role child = some (place.child slot))
include h hparent hchild

/-- A page of a process is taken out of its table. -/
theorem unmapUser (hlevel : memory.mode.level (slot :: place.path) = .page)
    (hstores : Stores memory parent slot .absent after)
    (hmarks : memory.pmm.Marks child false after.pmm) :
    Isolated after (Function.update role child none) := by
  refine h.of_typed hstores.state ?_ ⟨?_, ?_, ?_, ?_⟩
  · refine h.typed.detach hparent hchild ?_ ?_ ?_
    · rw [hstores.self]
      rfl
    · exact fun frame other index _ _ hplace ↦ hstores.other hplace
    · intro frame index hrole
      obtain ⟨-, -, hlinks, -⟩ := h.typed.up frame _ _ hrole
      simp only [discipline, Node.path_child, hlevel] at hlinks
  · intro frame other hrole
    rw [hmarks.held]
    exact h.held frame other (update_none_eq_some.1 hrole).2
  · intro frame other hrole hpage
    rw [hmarks.owned]
    exact h.kernelOwned frame other (update_none_eq_some.1 hrole).2 hpage
  · intro frame other hrole hpage
    rw [hmarks.mapped]
    obtain ⟨hne, hbefore⟩ := update_none_eq_some.1 hrole
    exact .inr ⟨hne, h.page frame other hbefore hpage⟩
  · intro frame hframe
    rcases (hmarks.mapped frame).1 hframe with ⟨-, hfalse⟩ | ⟨hne, hbefore⟩
    · cases hfalse
    · obtain ⟨other, hrole, hpage⟩ := h.mapped frame hbefore
      exact ⟨other, update_none_eq_some.2 ⟨hne, hrole⟩, hpage⟩

/-- A table or directory without entries goes back to the allocator. -/
theorem unlink (hlevel : memory.mode.level (slot :: place.path) ≠ .page)
    (hempty : ∀ index < memory.mode.slots, (memory.entry child index).present = false)
    (hstores : Stores memory parent slot .absent after)
    (hgives : memory.pmm.Gives child after.pmm) :
    Isolated after (Function.update role child none) := by
  refine h.of_typed hstores.state ?_ ⟨?_, ?_, ?_, ?_⟩
  · refine h.typed.detach hparent hchild ?_ ?_ ?_
    · rw [hstores.self]
      rfl
    · exact fun frame other index _ _ hplace ↦ hstores.other hplace
    · intro frame index hrole
      obtain ⟨holder, hholder, hlinks, hpresent, -⟩ := h.typed.up frame _ _ hrole
      rw [h.typed.injective hholder hchild] at hpresent
      have hindex : index < memory.mode.slots := by
        simp only [discipline] at hlinks
        split at hlinks
        · have hslots : paePdpEntries ≤ memory.mode.slots := by cases memory.mode <;> decide
          exact hlinks.trans_le hslots
        · exact hlinks.1
        · exact hlinks.1
        · exact hlinks.elim
      cases (hempty index hindex).symm.trans hpresent
  · intro frame other hrole
    rw [hgives.held]
    obtain ⟨hne, hbefore⟩ := update_none_eq_some.1 hrole
    exact ⟨h.held frame other hbefore, hne⟩
  · intro frame other hrole hpage
    rw [hgives.owned]
    exact fun howned ↦ h.kernelOwned frame other (update_none_eq_some.1 hrole).2 hpage howned.1
  · intro frame other hrole hpage
    rw [hgives.mapped]
    exact h.page frame other (update_none_eq_some.1 hrole).2 hpage
  · intro frame hframe
    obtain ⟨other, hrole, hpage⟩ := h.mapped frame ((hgives.mapped frame).1 hframe)
    refine ⟨other, update_none_eq_some.2 ⟨?_, hrole⟩, hpage⟩
    rintro rfl
    rw [hchild] at hrole
    injection hrole with hrole
    rw [← hrole] at hpage
    exact hlevel hpage

end

/-- Memory outside the trees is stored to, and the allocator serves someone else. -/
theorem elsewhere (h : Isolated memory role) (hstate : after.toPagingState = memory.toPagingState)
    (hframes : ∀ frame place, role frame = some place → memory.mode.level place.path ≠ .page →
      after.frames frame = memory.frames frame)
    (hheld : ∀ frame place, role frame = some place → after.pmm.Held frame)
    (howned : ∀ frame, memory.pmm.Held frame → ¬memory.pmm.Owned frame → ¬after.pmm.Owned frame)
    (hmapped : ∀ frame, after.pmm.Mapped frame ↔ memory.pmm.Mapped frame) :
    Isolated after role := by
  refine h.of_typed hstate (h.typed.rewrite ?_ ?_) ⟨hheld, ?_, ?_, ?_⟩
  · intro frame place index hrole hlinks
    have hlevel : memory.mode.level place.path ≠ .page := by
      intro hpage
      simp only [discipline, hpage] at hlinks
    rw [Ram.entry_congr (by rw [hstate]) (hframes frame place hrole hlevel)]
    exact ⟨rfl, fun _ ↦ rfl⟩
  · intro frame place index hrole hpresent
    by_cases hpage : memory.mode.level place.path = .page
    · simp only [discipline, hpage]
    · rw [Ram.entry_congr (by rw [hstate]) (hframes frame place hrole hpage)] at hpresent ⊢
      exact h.typed.admits frame place index hrole hpresent
  · exact fun frame place hrole hlevel ↦
      howned frame (h.held frame place hrole) (h.kernelOwned frame place hrole hlevel)
  · exact fun frame place hrole hpage ↦ (hmapped frame).2 (h.page frame place hrole hpage)
  · exact fun frame hframe ↦ h.mapped frame ((hmapped frame).1 hframe)

end Isolated

end EfesOS.Memory
