import EfesOS.Memory.Spaces

/-!
# New address spaces

A space is built before it is registered. `Builds` follows the building: the new tree consists of
frames that were free, everything else is as it was, and with the root registered the trees would be
isolated. If memory runs out, what was built goes back to the allocator, which is then as before
(`pagingCreateAddressSpace_spec`).
-/

set_option autoImplicit false

namespace EfesOS.Memory

open EfesOS.Foundation.PageTree

/-- Memory with one more directory in the registry. -/
def Ram.registering (root : UInt32) (memory : Ram) : Ram :=
  { memory with addressSpaces := memory.addressSpaces ++ [root] }

/-- A tree is built from a new root, in frames that were free. -/
structure Builds (root : UInt32) (before : Ram) (role : UInt32 → Option Place) (after : Ram)
    (roleAfter : UInt32 → Option Place) : Prop where
  state : after.toPagingState = before.toPagingState
  map : before.pmm.SameMap after.pmm
  held : ∀ frame, after.pmm.Held frame ↔ before.pmm.Held frame ∨ FrameOf roleAfter root frame
  fresh : ∀ frame, FrameOf roleAfter root frame → ¬before.pmm.Held frame
  owned : ∀ frame, after.pmm.Owned frame ↔ before.pmm.Owned frame
  mapped : ∀ frame, after.pmm.Mapped frame ↔ before.pmm.Mapped frame
  others : ∀ frame place, place.root ≠ root →
    (roleAfter frame = some place ↔ role frame = some place)
  frames : ∀ frame, before.pmm.Held frame → after.frames frame = before.frames frame
  isolated : Isolated (after.registering root) roleAfter

variable {memory after : Ram} {role roleAfter : UInt32 → Option Place} {root : UInt32}

/-- A copy of a directory of the kernel has nothing of the new tree's own. -/
theorem copied_directory (h : Isolated memory role) {directory : UInt32} {path : List ℕ}
    (hrole : role directory = some ⟨memory.kernelPageDirectory, path⟩)
    (hlevel : memory.mode.level path = .directory) (hprivate : root ≠ memory.kernelPageDirectory)
    {index : ℕ} (hpresent : (memory.entry directory index).present = true) :
    ¬(discipline memory.toPagingState).links ⟨root, path⟩ index ∧
      (discipline memory.toPagingState).admits ⟨root, path⟩ index
        (memory.entry directory index) := by
  have hadmits := h.typed.admits _ _ _ hrole hpresent
  simp only [discipline, hlevel, ne_eq, not_true_eq_false, false_and, iff_false] at hadmits ⊢
  constructor
  · rintro ⟨hindex, hregion⟩
    exact (hadmits hindex).2 trivial (hregion.resolve_left hprivate)
  · intro hindex
    obtain ⟨hkernel, hregion⟩ := hadmits hindex
    refine ⟨iff_of_false hkernel fun huser ↦ hregion trivial huser.2, fun heq ↦ ?_⟩
    exact absurd heq hprivate

variable {pmm : Pmm}

section

variable {place : Place} {fresh : UInt32} (hnone : role fresh = none)
include hnone

theorem frameOf_update (frame : UInt32) :
    FrameOf (Function.update role fresh (some place)) place.root frame ↔
      FrameOf role place.root frame ∨ frame = fresh := by
  constructor
  · rintro ⟨other, hrole, hroot⟩
    rcases (Typed.update_eq_some hnone).1 hrole with ⟨heq, -⟩ | hbefore
    · exact .inr heq
    · exact .inl ⟨other, hbefore, hroot⟩
  · rintro (⟨other, hrole, hroot⟩ | rfl)
    · exact ⟨other, (Typed.update_eq_some hnone).2 (.inr hrole), hroot⟩
    · exact ⟨place, Function.update_self _ _ _, rfl⟩

theorem update_eq_some_of_root_ne {frame : UInt32} {other : Place} (hne : other.root ≠ place.root) :
    Function.update role fresh (some place) frame = some other ↔ role frame = some other := by
  rw [Typed.update_eq_some hnone]
  refine ⟨fun hrole ↦ hrole.resolve_left ?_, .inr⟩
  rintro ⟨-, rfl⟩
  exact hne rfl

end

/-- A root is planted in a frame that was free. -/
theorem builds_root (h : Isolated memory role) {page : Page}
    (htakes : memory.pmm.Takes root false pmm)
    (hpage : ∀ index, (memory.mode.entry page index).present = true →
      ¬(discipline memory.toPagingState).links (.top root) index ∧
        (discipline memory.toPagingState).admits (.top root) index
          (memory.mode.entry page index)) :
    Builds root memory role ({ memory with pmm := pmm }.store root page)
      (Function.update role root (some (.top root))) := by
  have hnone : role root = none := h.role_eq_none htakes.free
  have hframeOf : ∀ frame, FrameOf (Function.update role root (some (.top root))) root frame ↔
      frame = root := by
    intro frame
    refine (frameOf_update hnone frame).trans (or_iff_right ?_)
    rintro ⟨place, hbefore, (hroot : place.root = root)⟩
    have hheld := h.held _ _ (h.typed.top _ (h.typed.root_mem hbefore))
    exact absurd (hroot ▸ hheld) htakes.free
  have hregistered : ∀ frame, memory.IsRoot frame → frame ≠ root := by
    rintro frame hframe rfl
    exact htakes.free (h.held _ _ (h.typed.top _ hframe))
  refine ⟨rfl, htakes.map, ?_, ?_, ?_, htakes.mapped,
    fun _ _ hne ↦ update_eq_some_of_root_ne hnone hne, ?_, ?_⟩
  · intro frame
    rw [hframeOf]
    exact htakes.held frame
  · intro frame hframe
    rw [hframeOf] at hframe
    exact hframe ▸ htakes.free
  · intro frame
    refine (htakes.owned frame).trans ?_
    simp
  · intro frame hheld
    refine Function.update_of_ne ?_ _ _
    rintro rfl
    exact htakes.free hheld
  · have hentry : ∀ frame index, frame ≠ root →
        ({ memory with pmm := pmm }.store root page).entry frame index =
          memory.entry frame index := by
      intro frame index hne
      have hframe : ({ memory with pmm := pmm }.store root page).frames frame =
        memory.frames frame := Function.update_of_ne hne _ _
      exact Ram.entry_congr (by rfl) hframe index
    have hroot : ∀ index, ({ memory with pmm := pmm }.store root page).entry root index =
        memory.mode.entry page index := by
      intro index
      rw [Ram.entry, Ram.frames_store, Function.update_self]
      rfl
    have hroots : (({ memory with pmm := pmm }.store root page).registering root).IsRoot =
        fun frame ↦ frame = root ∨ memory.IsRoot frame := by
      funext frame
      refine propext ?_
      change frame = memory.kernelPageDirectory ∨ frame ∈ memory.addressSpaces ++ [root] ↔
        frame = root ∨ frame = memory.kernelPageDirectory ∨ frame ∈ memory.addressSpaces
      rw [List.mem_append, List.mem_singleton]
      tauto
    have htyped := h.typed.plant hnone
      (fun frame other index hrole ↦ hentry frame index fun heq ↦ by
        rw [heq, hnone] at hrole
        cases hrole)
      (fun index hindex ↦ by
        rw [hroot] at hindex ⊢
        exact hpage index hindex)
    rw [← hroots] at htyped
    have hlevel : memory.mode.level (Node.top root).path ≠ .page := by
      cases memory.mode <;> simp [Mode.level]
    obtain ⟨hheld, hkernel, hmapped, hpages⟩ := h.agrees.takes hnone htakes hlevel
    refine ⟨htyped, hheld, hkernel, hmapped, hpages, ?_, ?_, ?_⟩
    · rw [hroots]
      exact .inr h.current
    · refine List.Nodup.append h.spaces (List.nodup_singleton root) ?_
      rw [List.disjoint_singleton]
      exact fun hmem ↦ hregistered root (.inr hmem) rfl
    · intro hmem
      rcases List.mem_append.1 hmem with hbefore | hnew
      · exact h.kernel hbefore
      · exact hregistered _ (.inl rfl) (List.mem_singleton.1 hnew)

section

variable (hbuilds : Builds root memory role after roleAfter)
include hbuilds

/-- The frames of the new tree are those given back when the building stops. -/
theorem Builds.pmm_eq (hreclaims : after.pmm.Reclaims (FrameOf roleAfter root) pmm) :
    pmm = memory.pmm := by
  refine Pmm.eq_of_frames (hbuilds.map.trans hreclaims.map) ?_ ?_ ?_
  · intro frame
    rw [hreclaims.held, hbuilds.held]
    constructor
    · rintro ⟨hheld | hown, hnot⟩
      · exact hheld
      · exact absurd hown hnot
    · exact fun hheld ↦ ⟨.inl hheld, fun hown ↦ hbuilds.fresh frame hown hheld⟩
  · intro frame
    rw [hreclaims.owned, hbuilds.owned]
    exact ⟨And.left, fun howned ↦ ⟨howned, fun hown ↦ hbuilds.fresh frame hown howned.held⟩⟩
  · intro frame
    rw [hreclaims.mapped, hbuilds.mapped]
    exact ⟨And.left, fun hmapped ↦
      ⟨hmapped, fun hown ↦ hbuilds.fresh frame hown hmapped.owned.held⟩⟩

theorem Builds.role_root :
    roleAfter root = some (.top root) :=
  hbuilds.isolated.typed.top root (.inr (List.mem_append_right _ (List.mem_singleton_self root)))

theorem Builds.frameOf_root :
    FrameOf roleAfter root root := ⟨_, hbuilds.role_root, rfl⟩

theorem Builds.root_ne (h : Isolated memory role) {other : UInt32} (hother : memory.IsRoot other) :
    root ≠ other := by
  rintro rfl
  exact hbuilds.fresh _ hbuilds.frameOf_root (h.held _ _ (h.typed.top _ hother))

end

/-! ### Copying page directories -/

theorem registering_grafted {parent physical : UInt32} {slot : ℕ} {page : Page} {entry : Entry} :
    (Isolated.grafted parent slot physical page entry pmm memory).registering root =
      Isolated.grafted parent slot physical page entry pmm (memory.registering root) := by
  have hset : ∀ (other : Ram), (other.setEntry parent slot entry).registering root =
      (other.registering root).setEntry parent slot entry := by
    rintro ⟨⟨mode, _, _, _, _, _⟩, _, _, _⟩
    cases mode <;> rfl
  exact hset _

/-- One more page directory of the kernel is copied. -/
theorem Builds.graft (hbuilds : Builds root memory role after roleAfter) (h : Isolated memory role)
    (hmode : memory.mode = .pae) {index : ℕ} (hindex : index < paePdpEntries)
    (habsent : (after.entry root index).present = false) {physical directory : UInt32}
    (htakes : after.pmm.Takes physical false pmm)
    (hdirectory : role directory = some ⟨memory.kernelPageDirectory, [index]⟩) :
    Builds root memory role
      (Isolated.grafted root index physical (after.frames directory) (directoryEntry physical) pmm
        after)
      (Function.update roleAfter physical (some ⟨root, [index]⟩)) := by
  have hprivate : root ≠ memory.kernelPageDirectory := hbuilds.root_ne h (.inl rfl)
  have hafterMode : after.mode = .pae := by
    rw [hbuilds.state]
    exact hmode
  have hnone : roleAfter physical = none := hbuilds.isolated.role_eq_none htakes.free
  have hfresh : ¬memory.pmm.Held physical := fun hheld ↦
    htakes.free ((hbuilds.held physical).2 (.inl hheld))
  have hkernel : roleAfter directory = some ⟨memory.kernelPageDirectory, [index]⟩ :=
    (hbuilds.others directory _ hprivate.symm).2 hdirectory
  have hisolated : Isolated ((Isolated.grafted root index physical (after.frames directory)
      (directoryEntry physical) pmm after).registering root)
      (Function.update roleAfter physical (some ⟨root, [index]⟩)) := by
    rw [registering_grafted]
    refine hbuilds.isolated.graft hbuilds.role_root ?_ habsent htakes
      (present_directoryEntry physical) (physical_directoryEntry htakes.aligned) ?_ (fun _ ↦ rfl)
      ?_ ?_
    · simp only [discipline, Ram.registering, hafterMode]
      exact hindex
    · simp only [discipline, Ram.registering, hafterMode]
      trivial
    · simp [Ram.registering, hafterMode, Mode.level]
    · intro slot hslot
      refine copied_directory hbuilds.isolated ?_ ?_ ?_ hslot
      · simp only [Ram.registering, hbuilds.state]
        exact hkernel
      · simp only [Ram.registering, hafterMode]
        rfl
      · simp only [Ram.registering, hbuilds.state]
        exact hprivate
  have hframeOf := @frameOf_update _ ⟨root, [index]⟩ _ hnone
  refine ⟨?_, ?_, ?_, ?_, ?_, ?_, fun frame place hplace ↦ ?_, ?_, hisolated⟩
  · rw [Isolated.toPagingState_grafted, hbuilds.state]
  · rw [Isolated.pmm_grafted]
    exact hbuilds.map.trans htakes.map
  · intro frame
    rw [Isolated.pmm_grafted, htakes.held, hbuilds.held, hframeOf, or_assoc]
  · intro frame hframe
    rcases (hframeOf frame).1 hframe with hbefore | rfl
    · exact hbuilds.fresh frame hbefore
    · exact hfresh
  · intro frame
    rw [Isolated.pmm_grafted, htakes.owned, hbuilds.owned]
    simp
  · intro frame
    rw [Isolated.pmm_grafted, htakes.mapped, hbuilds.mapped]
  · exact (update_eq_some_of_root_ne hnone hplace).trans (hbuilds.others frame place hplace)
  · intro frame hheld
    rw [Isolated.frames_grafted, hbuilds.frames frame hheld]
    · rintro rfl
      exact hbuilds.fresh _ hbuilds.frameOf_root hheld
    · rintro rfl
      exact hfresh hheld

/-- How far the copying has come. -/
structure Copied (root : UInt32) (memory after : Ram) (roleAfter : UInt32 → Option Place)
    (done : ℕ) : Prop where
  present : ∀ index < paePdpEntries, (after.entry root index).present =
    (decide (index < done) && (memory.entry memory.kernelPageDirectory index).present)
  frames : ∀ index < done, index < paePdpEntries → (after.entry root index).present = true →
    after.frames (after.entry root index).physical =
      memory.frames (memory.entry memory.kernelPageDirectory index).physical
  short : ∀ frame place, roleAfter frame = some place → place.root = root →
    place.path.length ≤ 1

section Clone

variable {done : ℕ}

section

variable (hbuilds : Builds root memory role after roleAfter) (hmode : memory.mode = .pae)
include hbuilds hmode

theorem Builds.role_directory {index : ℕ} (hindex : index < paePdpEntries)
    (hpresent : (after.entry root index).present = true) :
    roleAfter (after.entry root index).physical = some ⟨root, [index]⟩ := by
  refine hbuilds.isolated.typed.down root _ index hbuilds.role_root ?_ hpresent
  simp only [discipline, Ram.registering, hbuilds.state, hmode]
  exact hindex

/-- What was copied so far is what the failed call gives back. -/
theorem releaseClones_reclaims (hcopied : Copied root memory after roleAfter done)
    (hdone : done ≤ paePdpEntries) :
    after.pmm.Reclaims (FrameOf roleAfter root)
      (releaseClones root (List.range done) after).pmm := by
  let present := (List.range done).filter fun index ↦ (after.entry root index).present
  have hmem : ∀ index ∈ present, index < done ∧ (after.entry root index).present = true := by
    intro index hindex
    rw [List.mem_filter, List.mem_range] at hindex
    exact hindex
  have hrole : ∀ index ∈ present,
      roleAfter (after.entry root index).physical = some ⟨root, [index]⟩ := fun index hindex ↦
    hbuilds.role_directory hmode ((hmem index hindex).1.trans_le hdone) (hmem index hindex).2
  have hlevel : ∀ path : List ℕ, path.length ≤ 1 →
      (after.registering root).mode.level path ≠ .page := by
    intro path hpath
    simp only [Ram.registering, hbuilds.state, hmode]
    rcases path with _ | ⟨_, _ | _⟩ <;> simp [Mode.level] at hpath ⊢
  have hdirectories : after.pmm.Reclaims
      (fun frame ↦ ∃ index ∈ present, frame = (after.entry root index).physical)
      (present.foldl (fun pmm index ↦ pmmFreeBlock (after.entry root index).physical pmm)
        after.pmm) := by
    refine Pmm.reclaims_foldl _ (fun index frame ↦ frame = (after.entry root index).physical) _
      ?_ ?_
    · intro index hindex other hother
      refine pmmFreeBlock_reclaims ?_ ?_
      · rw [(hother _ rfl).1]
        exact hbuilds.isolated.held _ _ (hrole index hindex)
      · rw [(hother _ rfl).2]
        exact hbuilds.isolated.not_mapped (hrole index hindex) (hlevel _ le_rfl)
    · refine List.Pairwise.imp_of_mem ?_ (List.nodup_range.filter _)
      rintro first second hfirst hsecond hne frame rfl heq
      have hone := hrole first hfirst
      rw [← heq, hrole second hsecond] at hone
      injection hone with hnode
      injection hnode with _ hpath
      injection hpath with hslot _
      exact hne hslot.symm
  have hroot : ¬∃ index ∈ present, root = (after.entry root index).physical := by
    rintro ⟨index, hindex, heq⟩
    have hdirectory := hrole index hindex
    rw [← heq, hbuilds.role_root] at hdirectory
    injection hdirectory with hnode
    injection hnode with _ hpath
    cases hpath
  refine (hdirectories.trans (pmmFreeBlock_reclaims ?_ ?_)).congr ?_
  · rw [hdirectories.held]
    exact ⟨hbuilds.isolated.held _ _ hbuilds.role_root, hroot⟩
  · rw [hdirectories.mapped]
    exact fun hboth ↦
      hbuilds.isolated.not_mapped hbuilds.role_root (hlevel [] (Nat.zero_le 1)) hboth.1
  · intro frame
    constructor
    · rintro (⟨index, hindex, rfl⟩ | rfl)
      · exact ⟨_, hrole index hindex, rfl⟩
      · exact hbuilds.frameOf_root
    · rintro ⟨⟨_, path⟩, hframe, rfl⟩
      have hshort := hcopied.short frame _ hframe rfl
      rcases path with _ | ⟨index, _ | _⟩
      · exact .inr (hbuilds.isolated.typed.top_inv frame _ hframe).1
      · obtain ⟨parent, hparent, hlinks, hpresent, htarget⟩ :=
          hbuilds.isolated.typed.up frame (.top _) index hframe
        obtain ⟨rfl, -⟩ := hbuilds.isolated.typed.top_inv parent _ hparent
        have hindex : index < paePdpEntries := by
          simp only [discipline, Ram.registering, hbuilds.state, hmode] at hlinks
          exact hlinks
        have hpresentEntry : (after.entry parent index).present = true := hpresent
        have hcount := hcopied.present index hindex
        rw [hpresentEntry, eq_comm, Bool.and_eq_true, decide_eq_true_eq] at hcount
        refine .inl ⟨index, List.mem_filter.2 ⟨List.mem_range.2 hcount.1, hpresentEntry⟩, ?_⟩
        exact htarget.symm
      · simp at hshort

end

/-- Nothing was built, and what was taken is free again. -/
structure Unbuilt (memory after : Ram) : Prop where
  state : after.toPagingState = memory.toPagingState
  pmm : after.pmm = memory.pmm
  frames : ∀ frame, memory.pmm.Held frame → after.frames frame = memory.frames frame

theorem Copied.graft (hcopied : Copied root memory after roleAfter done)
    (hbuilds : Builds root memory role after roleAfter) (hmode : memory.mode = .pae)
    (hdone : done < paePdpEntries) {physical : UInt32} {pmm : Pmm}
    (htakes : after.pmm.Takes physical false pmm)
    (hkernel : (memory.entry memory.kernelPageDirectory done).present = true)
    (hframe : after.frames (memory.entry memory.kernelPageDirectory done).physical =
      memory.frames (memory.entry memory.kernelPageDirectory done).physical) :
    Copied root memory
      (Isolated.grafted root done physical
        (after.frames (memory.entry memory.kernelPageDirectory done).physical)
        (directoryEntry physical) pmm after)
      (Function.update roleAfter physical (some ⟨root, [done]⟩)) (done + 1) := by
  have hnone : roleAfter physical = none := hbuilds.isolated.role_eq_none htakes.free
  have hrootNe : root ≠ physical := by
    rintro rfl
    rw [hbuilds.role_root] at hnone
    cases hnone
  have hnarrow : after.mode = .legacy → (directoryEntry physical).high = 0 := fun _ ↦ rfl
  have hother : ∀ index ≠ done, (Isolated.grafted root done physical
      (after.frames (memory.entry memory.kernelPageDirectory done).physical)
      (directoryEntry physical) pmm after).entry root index = after.entry root index :=
    fun index hne ↦ Isolated.entry_grafted hrootNe fun hplace ↦ hne hplace.2
  refine ⟨?_, ?_, ?_⟩
  · intro index hindex
    by_cases heq : index = done
    · subst heq
      rw [Isolated.entry_grafted_self hnarrow, present_directoryEntry, hkernel]
      simp
    · rw [hother index heq, hcopied.present index hindex]
      have hiff : index < done ↔ index < done + 1 := by omega
      simp only [hiff]
  · intro index hlt hindex hpresent
    by_cases heq : index = done
    · subst heq
      rw [Isolated.entry_grafted_self hnarrow, physical_directoryEntry htakes.aligned,
        Isolated.grafted, Ram.frames_setEntry_of_ne _ hrootNe.symm, Ram.frames_store,
        Function.update_self]
      exact hframe
    · rw [hother index heq] at hpresent ⊢
      have hrole := hbuilds.role_directory hmode hindex hpresent
      rw [Isolated.frames_grafted]
      · exact hcopied.frames index (by omega) hindex hpresent
      · intro hroot
        rw [hroot, hbuilds.role_root] at hrole
        injection hrole with hnode
        injection hnode with _ hpath
        cases hpath
      · intro hphysical
        rw [hphysical, hnone] at hrole
        cases hrole
  · intro frame place hrole hroot
    rcases (Typed.update_eq_some hnone).1 hrole with ⟨-, rfl⟩ | hbefore
    · exact le_rfl
    · exact hcopied.short frame place hbefore hroot

/-- The page directories of the kernel are all copied, or none is left. -/
theorem cloneDirectories_spec (h : Isolated memory role) (hmode : memory.mode = .pae) (count : ℕ) :
    ∀ (done : ℕ) (after : Ram) (roleAfter : UInt32 → Option Place), done + count = paePdpEntries →
      Builds root memory role after roleAfter → Copied root memory after roleAfter done →
      (∃ built roleBuilt, cloneDirectories root (List.range' done count) after = (true, built) ∧
        Builds root memory role built roleBuilt ∧
        Copied root memory built roleBuilt paePdpEntries) ∨
      ∃ left, cloneDirectories root (List.range' done count) after = (false, left) ∧
        Unbuilt memory left := by
  induction count with
  | zero =>
    intro done after roleAfter hdone hbuilds hcopied
    subst hdone
    exact .inl ⟨after, roleAfter, rfl, hbuilds, hcopied⟩
  | succ count ih =>
    intro done after roleAfter hdone hbuilds hcopied
    have hlt : done < paePdpEntries := by omega
    have hstep : (done + 1) + count = paePdpEntries := by omega
    have hkernelRole := h.typed.top _ (.inl rfl : memory.IsRoot memory.kernelPageDirectory)
    have hkernelEntry : after.entry after.kernelPageDirectory done =
        memory.entry memory.kernelPageDirectory done := by
      rw [hbuilds.state]
      exact Ram.entry_congr (by rw [hbuilds.state])
        (hbuilds.frames _ (h.held _ _ hkernelRole)) done
    rw [List.range'_succ, cloneDirectories]
    dsimp only
    rw [hkernelEntry]
    cases hkernel : (memory.entry memory.kernelPageDirectory done).present with
    | false =>
      refine ih (done + 1) after roleAfter hstep hbuilds ⟨?_, ?_, hcopied.short⟩
      · intro index hindex
        rw [hcopied.present index hindex]
        by_cases heq : index = done
        · subst heq
          rw [hkernel, Bool.and_false, Bool.and_false]
        · have hiff : index < done ↔ index < done + 1 := by omega
          simp only [hiff]
      · intro index hindexLt hindex hpresent
        refine hcopied.frames index ?_ hindex hpresent
        rw [hcopied.present index hindex, Bool.and_eq_true, decide_eq_true_eq] at hpresent
        exact hpresent.1
    | true =>
      have hlinks : (discipline memory.toPagingState).links (.top memory.kernelPageDirectory)
          done := by
        simp only [discipline, hmode]
        exact hlt
      have hdirectory := h.typed.down _ _ _ hkernelRole hlinks hkernel
      rcases pmmAllocBlockBelow_cases lowIdentityLimit after.pmm with
        hfull | ⟨physical, pmm, halloc, htakes, -⟩
      · rw [hfull]
        refine .inr ⟨releaseClones root (List.range done) after, rfl, hbuilds.state, ?_, ?_⟩
        · exact hbuilds.pmm_eq (releaseClones_reclaims hbuilds hmode hcopied hlt.le)
        · exact hbuilds.frames
      · rw [halloc]
        rw [if_neg htakes.nonzero]
        have habsent : (after.entry root done).present = false := by
          rw [hcopied.present done hlt]
          simp
        exact ih (done + 1) _ _ hstep (hbuilds.graft h hmode hlt habsent htakes hdirectory)
          (hcopied.graft hbuilds hmode hlt htakes hkernel
            (hbuilds.frames _ (h.held _ _ hdirectory)))

end Clone

/-- A new space: a tree in frames that were free, with the tables of the kernel. -/
structure Creates (root : UInt32) (memory : Ram) (role : UInt32 → Option Place) (after : Ram)
    (roleAfter : UInt32 → Option Place) : Prop where
  room : memory.addressSpaces.length ≠ pagingMaxAddressSpaces
  built : ∃ built, Builds root memory role built roleAfter ∧ after = built.registering root
  tables : ∀ address, tableOf root address after =
    tableOf memory.kernelPageDirectory address memory

section

variable (h : Isolated memory role)
include h

theorem tableOf_copied
    (hbuilds : Builds root memory role after roleAfter)
    (hmode : memory.mode = .pae) (hcopied : Copied root memory after roleAfter paePdpEntries)
    (address : UInt32) :
    tableOf root address (after.registering root) =
      tableOf memory.kernelPageDirectory address memory := by
  have hindex := pdptIndex_lt address
  have hregistered : (after.registering root).IsRoot root :=
    .inr (List.mem_append_right _ (List.mem_singleton_self root))
  have hkernel : memory.IsRoot memory.kernelPageDirectory := .inl rfl
  have hafterMode : (after.registering root).mode = .pae := by
    simp only [Ram.registering, hbuilds.state, hmode]
  have hpresent := hcopied.present (pdptIndex address) hindex
  rw [decide_eq_true hindex, Bool.true_and] at hpresent
  unfold tableOf directoryEntryOf directoryFor
  rw [hafterMode, hmode]
  rcases hbuilds.isolated.paePageDirectoryFor_cases hafterMode hregistered hindex with
    ⟨hzero, hnone⟩ | ⟨hne, hphysical, hrole⟩
  · rw [if_pos hzero]
    rcases h.paePageDirectoryFor_cases hmode hkernel hindex with ⟨hkernelZero, -⟩ |
      ⟨-, -, hkernelRole⟩
    · rw [if_pos hkernelZero]
    · obtain ⟨parent, hparent, -, hkernelPresent, -⟩ := h.typed.up _ (.top _) _ hkernelRole
      obtain ⟨rfl, -⟩ := h.typed.top_inv parent _ hparent
      rw [show (memory.entry memory.kernelPageDirectory (pdptIndex address)).present = true from
        hkernelPresent] at hpresent
      exact absurd (hbuilds.role_directory hmode hindex hpresent) (hnone _)
  · rw [if_neg hne]
    obtain ⟨parent, hparent, -, hownPresent, -⟩ := hbuilds.isolated.typed.up _ (.top _) _ hrole
    obtain ⟨rfl, -⟩ := hbuilds.isolated.typed.top_inv parent _ hparent
    have hown : (after.entry parent (pdptIndex address)).present = true := hownPresent
    rw [hown] at hpresent
    have hlinks : (discipline memory.toPagingState).links (.top memory.kernelPageDirectory)
        (pdptIndex address) := by
      simp only [discipline, hmode]
      exact hindex
    have hdirectory := h.typed.down _ _ _ (h.typed.top _ hkernel) hlinks hpresent.symm
    obtain ⟨hkernelNe, hkernelPhysical, -⟩ :=
      (h.paePageDirectoryFor_cases hmode hkernel hindex).resolve_left fun hzero ↦
        hzero.2 _ hdirectory
    rw [if_neg hkernelNe, hphysical, hkernelPhysical]
    congr 1
    change after.mode.entry (after.frames (after.entry parent (pdptIndex address)).physical) _ =
      memory.mode.entry _ _
    rw [hcopied.frames _ hindex hindex hown, hbuilds.state, hmode]

theorem tableOf_stored_root (hmode : memory.mode = .legacy)
    (hnonzero : root ≠ 0) (address : UInt32) :
    tableOf root address (({ memory with pmm := pmm }.store root
        (memory.frames memory.kernelPageDirectory)).registering root) =
      tableOf memory.kernelPageDirectory address memory := by
  have hkernel := h.root_ne_zero (.inl rfl : memory.IsRoot memory.kernelPageDirectory)
  unfold tableOf directoryEntryOf directoryFor
  rw [show ((({ memory with pmm := pmm } : Ram).store root
    (memory.frames memory.kernelPageDirectory)).registering root).mode = .legacy from hmode, hmode]
  rw [if_neg hnonzero, if_neg hkernel]
  congr 1
  change memory.mode.entry (Function.update memory.frames root _ root) _ = _
  rw [Function.update_self, Ram.entry, hmode]

/-- The new root, in either mode: whole, or given back with everything below it. -/
theorem fillRoot_spec {frame : UInt32}
    (htakes : memory.pmm.Takes frame false pmm) :
    (∃ built roleAfter, fillRoot frame { memory with pmm := pmm } = (true, built) ∧
      Builds frame memory role built roleAfter ∧ ∀ address, tableOf frame address
        (built.registering frame) = tableOf memory.kernelPageDirectory address memory) ∨
    ∃ left, fillRoot frame { memory with pmm := pmm } = (false, left) ∧ Unbuilt memory left := by
  unfold fillRoot
  dsimp only
  split
  next hmode =>
    have hprivate : frame ≠ memory.kernelPageDirectory := by
      rintro rfl
      exact htakes.free (h.held _ _ (h.typed.top _ (.inl rfl)))
    have hlevel : memory.mode.level [] = .directory := by rw [hmode]; rfl
    have hpage : ∀ index,
        (memory.mode.entry (memory.frames memory.kernelPageDirectory) index).present = true →
        ¬(discipline memory.toPagingState).links (.top frame) index ∧
          (discipline memory.toPagingState).admits (.top frame) index
            (memory.mode.entry (memory.frames memory.kernelPageDirectory) index) :=
      fun index hindex ↦ copied_directory h (h.typed.top _ (.inl rfl)) hlevel hprivate hindex
    exact .inl ⟨_, _, rfl, builds_root h htakes hpage,
      tableOf_stored_root h hmode htakes.nonzero⟩
  next hmode =>
    have hpage : ∀ index, (memory.mode.entry (fun _ ↦ 0) index).present = true →
        ¬(discipline memory.toPagingState).links (.top frame) index ∧
          (discipline memory.toPagingState).admits (.top frame) index
            (memory.mode.entry (fun _ ↦ 0) index) := by
      intro index hindex
      rw [Isolated.entry_zero] at hindex
      cases hindex
    have hbuilds := builds_root h htakes hpage
    have habsent : ∀ index, (({ memory with pmm := pmm }.store frame fun _ ↦ 0).entry frame
        index).present = false := by
      intro index
      rw [Ram.entry, Ram.frames_store, Function.update_self, Isolated.entry_zero]
      rfl
    have hcopied : Copied frame memory ({ memory with pmm := pmm }.store frame fun _ ↦ 0)
        (Function.update role frame (some (.top frame))) 0 := by
      refine ⟨fun index _ ↦ by rw [habsent]; rfl, fun index hindex ↦ absurd hindex
        (Nat.not_lt_zero index), ?_⟩
      intro other place hrole hroot
      rcases (Typed.update_eq_some (h.role_eq_none htakes.free)).1 hrole with ⟨-, rfl⟩ | hbefore
      · exact Nat.zero_le 1
      · exact absurd hroot.symm (hbuilds.root_ne h (h.typed.root_mem hbefore))
    rcases cloneDirectories_spec h hmode paePdpEntries 0 _ _ (Nat.zero_add _) hbuilds hcopied with
      ⟨built, roleBuilt, hclone, hbuilt, hcopied⟩ | ⟨left, hclone, hunbuilt⟩
    · exact .inl ⟨built, roleBuilt, hclone, hbuilt, tableOf_copied h hbuilt hmode hcopied⟩
    · exact .inr ⟨left, hclone, hunbuilt⟩

/-- A call that makes a space makes it whole; one that fails leaves nothing behind. -/
theorem pagingCreateAddressSpace_spec :
    ((pagingCreateAddressSpace memory).1 = 0 ∧ Unbuilt memory (pagingCreateAddressSpace memory).2) ∨
    ∃ root after roleAfter, pagingCreateAddressSpace memory = (root, after) ∧ root ≠ 0 ∧
      Creates root memory role after roleAfter := by
  have hunchanged : Unbuilt memory memory := ⟨rfl, rfl, fun _ _ ↦ rfl⟩
  unfold pagingCreateAddressSpace
  split
  · exact .inl ⟨rfl, hunchanged⟩
  next hroom =>
  rw [not_or] at hroom
  rcases pmmAllocBlockBelow_cases lowIdentityLimit memory.pmm with
    hfull | ⟨root, pmm, halloc, htakes, -⟩
  · rw [hfull]
    exact .inl ⟨rfl, hunchanged⟩
  rw [halloc]
  dsimp only
  rw [if_neg htakes.nonzero]
  rcases fillRoot_spec h htakes with ⟨built, roleAfter, hfill, hbuilds, htables⟩ |
    ⟨left, hfill, hunbuilt⟩
  · rw [hfill]
    exact .inr ⟨root, built.registering root, roleAfter, rfl, htakes.nonzero, hroom.2,
      ⟨built, hbuilds, rfl⟩, htables⟩
  · rw [hfill]
    exact .inl ⟨rfl, hunbuilt⟩

end

end EfesOS.Memory
