import Mathlib.Tactic

/-!
# Trees of tables in a memory of frames

Each frame of a memory has numbered slots, a slot holds an entry, and a present entry points at a
frame. Starting from a root frame and following slots gives a tree of tables, as the page tables
of a processor are. Several trees live in one memory beside frames that belong to none.

A `Node` names a place in a tree: its root and the slots that lead to it. `Typed` says that an
assignment of nodes to frames is what the contents of the frames say: following a slot that holds
a link arrives at the frame of the child node, every node but a root is reached that way, and
present entries are of the kind their place admits. A frame has at most one node, so no frame is
shared by two trees or by two places of one tree (`Typed.injective` is the other direction).

Changes of the memory are covered by five rules: rewriting entries in place (`Typed.rewrite`),
hanging a frame into an empty slot (`Typed.attach`), taking a childless node out
(`Typed.detach`), adding a root (`Typed.plant`) and dropping a whole tree (`Typed.uproot`).
-/

set_option autoImplicit false

namespace EfesOS.Foundation.PageTree

variable {F W : Type}

/-- A place in a tree: the root and the slots from it, the last one first. -/
@[ext] structure Node (F : Type) where
  root : F
  path : List ℕ
  deriving DecidableEq

/-- The root of a tree as a place. -/
def Node.top (root : F) : Node F := ⟨root, []⟩

def Node.child (node : Node F) (slot : ℕ) : Node F := ⟨node.root, slot :: node.path⟩

@[simp] theorem Node.root_top (root : F) : (Node.top root).root = root := rfl

@[simp] theorem Node.path_top (root : F) : (Node.top root).path = [] := rfl

@[simp] theorem Node.root_child (node : Node F) (slot : ℕ) :
    (node.child slot).root = node.root := rfl

@[simp] theorem Node.path_child (node : Node F) (slot : ℕ) :
    (node.child slot).path = slot :: node.path := rfl

theorem Node.child_inj {first second : Node F} {slot other : ℕ} :
    first.child slot = second.child other ↔ first = second ∧ slot = other := by
  constructor
  · intro h
    injection h with hroot hpath
    injection hpath with hslot htail
    exact ⟨Node.ext hroot htail, hslot⟩
  · rintro ⟨rfl, rfl⟩
    rfl

theorem Node.child_ne_top (node : Node F) (slot : ℕ) (root : F) : node.child slot ≠ .top root :=
  fun h ↦ List.cons_ne_nil _ _ (congrArg Node.path h)

theorem Node.path_eq {role : F → Option (Node F)} {frame root other : F} {path way : List ℕ}
    (hone : role frame = some ⟨root, path⟩) (htwo : role frame = some ⟨other, way⟩) : path = way :=
  congrArg Node.path (Option.some.inj (hone.symm.trans htwo))

/-- How entries are read, and what is asked of them in each place. -/
structure Discipline (F W : Type) where
  present : W → Bool
  target : W → F
  /-- The slots of a node whose present entries lead to nodes of the same tree. -/
  links : Node F → ℕ → Prop
  /-- What a present entry in a slot of a node is like. -/
  admits : Node F → ℕ → W → Prop

/-- The nodes of frames agree with what the frames hold. -/
structure Typed (D : Discipline F W) (entry : F → ℕ → W) (roots : F → Prop)
    (role : F → Option (Node F)) : Prop where
  top : ∀ root, roots root → role root = some (.top root)
  top_inv : ∀ frame root, role frame = some (.top root) → frame = root ∧ roots root
  down : ∀ frame node slot, role frame = some node → D.links node slot →
    D.present (entry frame slot) = true →
    role (D.target (entry frame slot)) = some (node.child slot)
  up : ∀ frame node slot, role frame = some (node.child slot) →
    ∃ parent, role parent = some node ∧ D.links node slot ∧
      D.present (entry parent slot) = true ∧ D.target (entry parent slot) = frame
  admits : ∀ frame node slot, role frame = some node → D.present (entry frame slot) = true →
    D.admits node slot (entry frame slot)

namespace Typed

variable {D : Discipline F W} {entry after : F → ℕ → W} {roots : F → Prop}
  {role : F → Option (Node F)} {frame first second : F} {node : Node F} {slot : ℕ}

section

variable (h : Typed D entry roots role)
include h

/-- A node is either a root or the child of a node. -/
theorem root_mem (hrole : role frame = some node) :
    roots node.root := by
  obtain ⟨root, path⟩ := node
  induction path generalizing frame with
  | nil => exact (h.top_inv frame root hrole).2
  | cons slot path ih =>
    obtain ⟨parent, hparent, -⟩ := h.up frame ⟨root, path⟩ slot hrole
    exact ih hparent

/-- No two frames have one node. -/
theorem injective (hfirst : role first = some node)
    (hsecond : role second = some node) : first = second := by
  obtain ⟨root, path⟩ := node
  induction path generalizing first second with
  | nil => rw [(h.top_inv first root hfirst).1, (h.top_inv second root hsecond).1]
  | cons slot path ih =>
    obtain ⟨parent, hparent, -, -, htarget⟩ := h.up first ⟨root, path⟩ slot hfirst
    obtain ⟨other, hother, -, -, hreach⟩ := h.up second ⟨root, path⟩ slot hsecond
    rw [← htarget, ← hreach, ih hparent hother]

/-- An empty link has no child. -/
theorem role_ne_child (hrole : role frame = some node)
    (habsent : D.present (entry frame slot) = false) : role second ≠ some (node.child slot) := by
  intro hchild
  obtain ⟨parent, hparent, -, hpresent, -⟩ := h.up second node slot hchild
  rw [h.injective hparent hrole, habsent] at hpresent
  cases hpresent

/-- Entries may be rewritten as long as the links keep leading where they did. -/
theorem rewrite
    (hlinks : ∀ frame node slot, role frame = some node → D.links node slot →
      D.present (after frame slot) = D.present (entry frame slot) ∧
      (D.present (entry frame slot) = true →
        D.target (after frame slot) = D.target (entry frame slot)))
    (hadmits : ∀ frame node slot, role frame = some node →
      D.present (after frame slot) = true → D.admits node slot (after frame slot)) :
    Typed D after roots role where
  top := h.top
  top_inv := h.top_inv
  down frame node slot hrole hlink hafter := by
    obtain ⟨hpresent, htarget⟩ := hlinks frame node slot hrole hlink
    rw [hpresent] at hafter
    rw [htarget hafter]
    exact h.down frame node slot hrole hlink hafter
  up frame node slot hrole := by
    obtain ⟨parent, hparent, hlink, hbefore, hreach⟩ := h.up frame node slot hrole
    obtain ⟨hpresent, htarget⟩ := hlinks parent node slot hparent hlink
    exact ⟨parent, hparent, hlink, hpresent.trans hbefore, (htarget hbefore).trans hreach⟩
  admits := hadmits

end

variable [DecidableEq F]

/-- The nodes after one more frame got one. -/
theorem update_eq_some {fresh : F} {added other : Node F} (hfresh : role fresh = none) :
    Function.update role fresh (some added) frame = some other ↔
      frame = fresh ∧ other = added ∨ role frame = some other := by
  rw [Function.update_apply]
  split_ifs with heq
  · rw [Option.some_inj, heq, hfresh]
    simp only [true_and, reduceCtorEq, or_false, eq_comm]
  · simp only [heq, false_and, false_or]

/-- A frame without a node becomes the child behind an empty link. -/
theorem attach (h : Typed D entry roots role) {parent child : F}
    (hparent : role parent = some node) (hlinks : D.links node slot)
    (habsent : D.present (entry parent slot) = false) (hchild : role child = none)
    (hafter : D.present (after parent slot) = true)
    (htarget : D.target (after parent slot) = child)
    (hadmits : D.admits node slot (after parent slot))
    (hsame : ∀ frame other index, role frame = some other → ¬(frame = parent ∧ index = slot) →
      after frame index = entry frame index)
    (hempty : ∀ index, D.present (after child index) = true →
      ¬D.links (node.child slot) index ∧ D.admits (node.child slot) index (after child index)) :
    Typed D after roots (Function.update role child (some (node.child slot))) := by
  have hkeep : ∀ frame other, role frame = some other →
      Function.update role child (some (node.child slot)) frame = some other :=
    fun _ _ hrole ↦ (update_eq_some hchild).2 (.inr hrole)
  refine ⟨fun root hroot ↦ hkeep root _ (h.top root hroot), ?_, ?_, ?_, ?_⟩
  · intro frame root hrole
    rcases (update_eq_some hchild).1 hrole with ⟨-, heq⟩ | hbefore
    · exact absurd heq.symm (node.child_ne_top slot root)
    · exact h.top_inv frame root hbefore
  · intro frame other index hrole hother hpresent
    rcases (update_eq_some hchild).1 hrole with ⟨rfl, rfl⟩ | hbefore
    · exact absurd hother (hempty index hpresent).1
    by_cases hplace : frame = parent ∧ index = slot
    · obtain ⟨rfl, rfl⟩ := hplace
      rw [htarget, Function.update_self]
      rw [hparent] at hbefore
      injection hbefore with hbefore
      rw [hbefore]
    · rw [hsame frame other index hbefore hplace] at hpresent ⊢
      exact hkeep _ _ (h.down frame other index hbefore hother hpresent)
  · intro frame other index hrole
    rcases (update_eq_some hchild).1 hrole with ⟨rfl, heq⟩ | hbefore
    · obtain ⟨rfl, rfl⟩ := Node.child_inj.1 heq
      exact ⟨parent, hkeep _ _ hparent, hlinks, hafter, htarget⟩
    · obtain ⟨holder, hholder, hindex, hpresent, hreach⟩ := h.up frame other index hbefore
      have hplace : ¬(holder = parent ∧ index = slot) := by
        rintro ⟨rfl, rfl⟩
        rw [habsent] at hpresent
        cases hpresent
      rw [← hsame holder other index hholder hplace] at hpresent hreach
      exact ⟨holder, hkeep _ _ hholder, hindex, hpresent, hreach⟩
  · intro frame other index hrole hpresent
    rcases (update_eq_some hchild).1 hrole with ⟨rfl, rfl⟩ | hbefore
    · exact (hempty index hpresent).2
    by_cases hplace : frame = parent ∧ index = slot
    · obtain ⟨rfl, rfl⟩ := hplace
      rw [hparent] at hbefore
      injection hbefore with hbefore
      exact hbefore ▸ hadmits
    · rw [hsame frame other index hbefore hplace] at hpresent ⊢
      exact h.admits frame other index hbefore hpresent

/-- A node without children is taken out of its tree. -/
theorem detach (h : Typed D entry roots role) {parent child : F}
    (hparent : role parent = some node) (hchild : role child = some (node.child slot))
    (hafter : D.present (after parent slot) = false)
    (hsame : ∀ frame other index, role frame = some other → frame ≠ child →
      ¬(frame = parent ∧ index = slot) → after frame index = entry frame index)
    (hchildless : ∀ frame index, role frame ≠ some ((node.child slot).child index)) :
    Typed D after roots (Function.update role child none) := by
  have hkeep : ∀ frame other, role frame = some other → other ≠ node.child slot →
      Function.update role child none frame = some other := by
    intro frame other hrole hne
    rw [Function.update_of_ne, hrole]
    rintro rfl
    rw [hchild] at hrole
    injection hrole with hrole
    exact hne hrole.symm
  have hcases : ∀ frame other, Function.update role child none frame = some other →
      frame ≠ child ∧ role frame = some other := by
    intro frame other hrole
    rw [Function.update_apply] at hrole
    split_ifs at hrole with heq
    exact ⟨heq, hrole⟩
  have hplace : ∀ frame index, D.present (after frame index) = true →
      ¬(frame = parent ∧ index = slot) := by
    rintro frame index hpresent ⟨rfl, rfl⟩
    rw [hafter] at hpresent
    cases hpresent
  refine ⟨?_, ?_, ?_, ?_, ?_⟩
  · intro root hroot
    exact hkeep root _ (h.top root hroot) (Node.child_ne_top _ _ _).symm
  · intro frame root hrole
    exact h.top_inv frame root (hcases frame _ hrole).2
  · intro frame other index hrole hother hpresent
    obtain ⟨hne, hbefore⟩ := hcases frame other hrole
    have helse := hplace frame index hpresent
    rw [hsame frame other index hbefore hne helse] at hpresent ⊢
    refine hkeep _ _ (h.down frame other index hbefore hother hpresent) ?_
    intro heq
    obtain ⟨rfl, rfl⟩ := Node.child_inj.1 heq
    exact helse ⟨h.injective hbefore hparent, rfl⟩
  · intro frame other index hrole
    obtain ⟨hne, hbefore⟩ := hcases frame _ hrole
    obtain ⟨holder, hholder, hindex, hpresent, hreach⟩ := h.up frame other index hbefore
    have hholderNe : holder ≠ child := by
      rintro rfl
      rw [hchild] at hholder
      injection hholder with hholder
      exact hchildless frame index (hholder ▸ hbefore)
    have helse : ¬(holder = parent ∧ index = slot) := by
      rintro ⟨rfl, rfl⟩
      have hnode : other = node := Option.some.inj (hholder.symm.trans hparent)
      exact hne (h.injective (hnode ▸ hbefore) hchild)
    rw [← hsame holder other index hholder hholderNe helse] at hpresent hreach
    refine ⟨holder, ?_, hindex, hpresent, hreach⟩
    rw [Function.update_of_ne hholderNe, hholder]
  · intro frame other index hrole hpresent
    obtain ⟨hne, hbefore⟩ := hcases frame other hrole
    have helse := hplace frame index hpresent
    rw [hsame frame other index hbefore hne helse] at hpresent ⊢
    exact h.admits frame other index hbefore hpresent

/-- A frame without a node becomes the root of a tree. -/
theorem plant (h : Typed D entry roots role) {root : F} (hroot : role root = none)
    (hsame : ∀ frame other index, role frame = some other →
      after frame index = entry frame index)
    (hempty : ∀ index, D.present (after root index) = true →
      ¬D.links (.top root) index ∧ D.admits (.top root) index (after root index)) :
    Typed D after (fun frame ↦ frame = root ∨ roots frame)
      (Function.update role root (some (.top root))) := by
  have hkeep : ∀ frame other, role frame = some other →
      Function.update role root (some (.top root)) frame = some other :=
    fun _ _ hrole ↦ (update_eq_some hroot).2 (.inr hrole)
  refine ⟨?_, ?_, ?_, ?_, ?_⟩
  · rintro other (rfl | hother)
    · exact Function.update_self _ _ _
    · exact hkeep other _ (h.top other hother)
  · intro frame other hrole
    rcases (update_eq_some hroot).1 hrole with ⟨rfl, heq⟩ | hbefore
    · have hother : other = frame := congrArg Node.root heq
      exact ⟨hother.symm, .inl hother⟩
    · exact ⟨(h.top_inv frame other hbefore).1, .inr (h.top_inv frame other hbefore).2⟩
  · intro frame other index hrole hother hpresent
    rcases (update_eq_some hroot).1 hrole with ⟨rfl, rfl⟩ | hbefore
    · exact absurd hother (hempty index hpresent).1
    · rw [hsame frame other index hbefore] at hpresent ⊢
      exact hkeep _ _ (h.down frame other index hbefore hother hpresent)
  · intro frame other index hrole
    rcases (update_eq_some hroot).1 hrole with ⟨-, heq⟩ | hbefore
    · exact absurd heq (other.child_ne_top index root)
    · obtain ⟨holder, hholder, hindex, hpresent, hreach⟩ := h.up frame other index hbefore
      rw [← hsame holder other index hholder] at hpresent hreach
      exact ⟨holder, hkeep _ _ hholder, hindex, hpresent, hreach⟩
  · intro frame other index hrole hpresent
    rcases (update_eq_some hroot).1 hrole with ⟨rfl, rfl⟩ | hbefore
    · exact (hempty index hpresent).2
    · rw [hsame frame other index hbefore] at hpresent ⊢
      exact h.admits frame other index hbefore hpresent

end Typed

/-! ### Dropping a tree -/

/-- The nodes that remain without one tree. -/
def without [DecidableEq F] (role : F → Option (Node F)) (root frame : F) : Option (Node F) :=
  (role frame).filter fun node ↦ node.root ≠ root

section Without

variable [DecidableEq F] {D : Discipline F W} {entry : F → ℕ → W} {roots : F → Prop}
  {role : F → Option (Node F)} {root frame : F} {node : Node F}

theorem without_eq_some :
    without role root frame = some node ↔ role frame = some node ∧ node.root ≠ root := by
  simp [without, Option.filter_eq_some_iff]

theorem Typed.uproot (h : Typed D entry roots role) (root : F) :
    Typed D entry (fun frame ↦ roots frame ∧ frame ≠ root) (without role root) where
  top other hother := without_eq_some.2 ⟨h.top other hother.1, hother.2⟩
  top_inv frame other hrole := by
    obtain ⟨hbefore, hne⟩ := without_eq_some.1 hrole
    obtain ⟨heq, hroots⟩ := h.top_inv frame other hbefore
    exact ⟨heq, hroots, hne⟩
  down frame node slot hrole hlinks hpresent := by
    obtain ⟨hbefore, hne⟩ := without_eq_some.1 hrole
    exact without_eq_some.2 ⟨h.down frame node slot hbefore hlinks hpresent, hne⟩
  up frame node slot hrole := by
    obtain ⟨hbefore, hne⟩ := without_eq_some.1 hrole
    obtain ⟨parent, hparent, hrest⟩ := h.up frame node slot hbefore
    exact ⟨parent, without_eq_some.2 ⟨hparent, hne⟩, hrest⟩
  admits frame node slot hrole hpresent :=
    h.admits frame node slot (without_eq_some.1 hrole).1 hpresent

end Without

/-! ### A tree with given nodes -/

section Nodes

variable [DecidableEq F] {D : Discipline F W} {entry : F → ℕ → W} {nodes : List (F × Node F)}

theorem lookup_eq_some (hdistinct : (nodes.map Prod.fst).Nodup) {frame : F} {node : Node F} :
    nodes.lookup frame = some node ↔ (frame, node) ∈ nodes := by
  induction nodes with
  | nil => simp
  | cons first rest ih =>
    obtain ⟨other, place⟩ := first
    rw [List.map_cons, List.nodup_cons] at hdistinct
    rw [List.lookup_cons, List.mem_cons, ← ih hdistinct.2, Prod.mk.injEq]
    by_cases heq : frame = other
    · have hnone : rest.lookup frame ≠ some node := by
        intro hsome
        rw [ih hdistinct.2, heq] at hsome
        exact hdistinct.1 (List.mem_map.2 ⟨_, hsome, rfl⟩)
      rw [heq] at hnone
      simp [hnone, heq, eq_comm]
    · simp [heq, beq_false_of_ne heq]

/-- Nodes that lead to each other and are led to make a tree. -/
theorem Typed.of_nodes {root : F} (hdistinct : (nodes.map Prod.fst).Nodup)
    (hroot : (root, Node.top root) ∈ nodes)
    (hdown : ∀ node ∈ nodes, ∀ slot, D.links node.2 slot →
      D.present (entry node.1 slot) = true →
      (D.target (entry node.1 slot), node.2.child slot) ∈ nodes)
    (hup : ∀ node ∈ nodes, node = (root, .top root) ∨ ∃ parent ∈ nodes, ∃ slot,
      node.2 = parent.2.child slot ∧ D.links parent.2 slot ∧
        D.present (entry parent.1 slot) = true ∧ D.target (entry parent.1 slot) = node.1)
    (hadmits : ∀ node ∈ nodes, ∀ slot, D.present (entry node.1 slot) = true →
      D.admits node.2 slot (entry node.1 slot)) :
    Typed D entry (· = root) (nodes.lookup ·) where
  top other hother := (lookup_eq_some hdistinct).2 (hother ▸ hroot)
  top_inv frame other hrole := by
    rcases hup _ ((lookup_eq_some hdistinct).1 hrole) with heq | ⟨parent, -, slot, heq, -⟩
    · obtain ⟨rfl, htop⟩ := Prod.mk.inj heq
      exact ⟨(congrArg Node.root htop).symm, congrArg Node.root htop⟩
    · exact absurd heq.symm (parent.2.child_ne_top slot other)
  down frame node slot hrole hlinks hpresent :=
    (lookup_eq_some hdistinct).2
      (hdown _ ((lookup_eq_some hdistinct).1 hrole) slot hlinks hpresent)
  up frame node slot hrole := by
    rcases hup _ ((lookup_eq_some hdistinct).1 hrole) with heq | ⟨parent, hmem, other, heq, hrest⟩
    · exact absurd (Prod.mk.inj heq).2 (node.child_ne_top slot root)
    · obtain ⟨rfl, rfl⟩ := Node.child_inj.1 heq
      exact ⟨parent.1, (lookup_eq_some hdistinct).2 hmem, hrest⟩
  admits frame node slot hrole := hadmits _ ((lookup_eq_some hdistinct).1 hrole) slot

end Nodes

end EfesOS.Foundation.PageTree
