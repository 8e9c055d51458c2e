import Mathlib.Tactic

/-!
# Programs that may halt

A program reads and changes a state and either returns a value or halts with a message. It is
built from `read`, `change` and `halt` with the monad operations, and `onPart` runs a program of
a component inside the whole state.

`Ensures program state post` says that whatever the program returns when started in the state
satisfies the postcondition; nothing is said of a run that halts. The `ensures_` lemmas compute it
along the program text, so a proof about a program is `simp` with them down to the calls it makes,
and the specification of each call through `Ensures.mono`. `Keeps` is the special case of an
invariant; its rules follow the shape of the program and never look at the state.
-/

set_option autoImplicit false

namespace EfesOS.Foundation

/-- A computation over a state that returns a value or halts with a message. -/
abbrev Program (σ α : Type) := StateT σ (Except String) α

namespace Program

variable {σ τ α β : Type}

def read (observe : σ → α) : Program σ α := fun state ↦ .ok (observe state, state)

def change (update : σ → σ) : Program σ Unit := fun state ↦ .ok ((), update state)

def halt (message : String) : Program σ α := fun _ ↦ .error message

/-- Run a program of a component, given how to read and replace the component. -/
def onPart (part : σ → τ) (replace : σ → τ → σ) (program : Program τ α) : Program σ α :=
  fun state ↦ (program (part state)).map fun outcome ↦ (outcome.1, replace state outcome.2)

/-- Run the program only under a condition. -/
def when (condition : Prop) [Decidable condition] (program : Program σ Unit) : Program σ Unit :=
  if condition then program else pure ()

/-- Run the body for every element of a list in order. -/
def forEach (body : β → Program σ Unit) : List β → Program σ Unit
  | [] => pure ()
  | first :: rest => do
    body first
    forEach body rest

/-! ### Postconditions -/

/-- Whatever the program returns from the state satisfies the postcondition. -/
def Ensures (program : Program σ α) (state : σ) (post : α → σ → Prop) : Prop :=
  ∀ value next, program state = .ok (value, next) → post value next

variable {program : Program σ α} {state : σ} {post : α → σ → Prop}

theorem Ensures.mono {weaker : α → σ → Prop} (h : Ensures program state post)
    (himplies : ∀ value next, post value next → weaker value next) :
    Ensures program state weaker :=
  fun value next hrun ↦ himplies value next (h value next hrun)

@[simp] theorem ensures_pure (value : α) :
    Ensures (pure value : Program σ α) state post ↔ post value state := by
  constructor
  · exact fun h ↦ h value state rfl
  · rintro h _ _ hrun
    cases hrun
    exact h

@[simp] theorem ensures_bind (rest : α → Program σ β) {post : β → σ → Prop} :
    Ensures (program >>= rest) state post ↔
      Ensures program state fun value next ↦ Ensures (rest value) next post := by
  have hunfold : (program >>= rest) state =
      (program state).bind fun outcome ↦ rest outcome.1 outcome.2 := rfl
  unfold Ensures
  rw [hunfold]
  cases program state with
  | error message =>
    constructor
    · rintro - value next hrun
      cases hrun
    · rintro - value next hrun
      cases hrun
  | ok outcome =>
    constructor
    · rintro h _ _ hrun
      cases hrun
      exact h
    · exact fun h ↦ h outcome.1 outcome.2 rfl

theorem ensures_map (rename : α → β) {post : β → σ → Prop} :
    Ensures (rename <$> program) state post ↔
      Ensures program state fun value next ↦ post (rename value) next := by
  rw [map_eq_pure_bind, ensures_bind]
  simp only [ensures_pure]

@[simp] theorem ensures_read (observe : σ → α) :
    Ensures (read observe) state post ↔ post (observe state) state :=
  ensures_pure (observe state)

@[simp] theorem ensures_change (update : σ → σ) {post : Unit → σ → Prop} :
    Ensures (change update) state post ↔ post () (update state) := by
  constructor
  · exact fun h ↦ h () (update state) rfl
  · rintro h _ _ hrun
    cases hrun
    exact h

@[simp] theorem ensures_halt (message : String) :
    Ensures (halt message : Program σ α) state post := by
  rintro _ _ hrun
  cases hrun

@[simp] theorem ensures_ite (condition : Prop) [Decidable condition]
    (first second : Program σ α) :
    Ensures (if condition then first else second) state post ↔
      (condition → Ensures first state post) ∧ (¬condition → Ensures second state post) := by
  by_cases hcondition : condition <;> simp [hcondition]

/-- A program of a component changes nothing else. -/
theorem ensures_onPart {part : σ → τ} {replace : σ → τ → σ} {program : Program τ α}
    (h : ∀ value component, program (part state) = .ok (value, component) →
      post value (replace state component)) :
    Ensures (onPart part replace program) state post := by
  intro value next hrun
  unfold onPart at hrun
  cases hcomponent : program (part state) with
  | error message =>
    rw [hcomponent] at hrun
    cases hrun
  | ok outcome =>
    rw [hcomponent] at hrun
    cases hrun
    exact h _ _ hcomponent

/-- A loop whose body acts as a function on an observation of the state acts as the fold. -/
theorem ensures_forEach {body : β → Program σ Unit} {observe : σ → τ} {act : τ → β → τ}
    (hbody : ∀ item state,
      Ensures (body item) state fun _ next ↦ observe next = act (observe state) item)
    (items : List β) (state : σ) :
    Ensures (forEach body items) state fun _ next ↦
      observe next = items.foldl act (observe state) := by
  induction items generalizing state with
  | nil => exact (ensures_pure ()).mpr rfl
  | cons first rest ih =>
    rw [forEach, ensures_bind]
    refine (hbody first state).mono fun _ middle hmiddle ↦ ?_
    rw [List.foldl_cons, ← hmiddle]
    exact ih middle

/-! ### Invariants -/

/-- The program leaves the invariant true whenever it returns. -/
def Keeps (inv : σ → Prop) (program : Program σ α) : Prop :=
  ∀ state, inv state → Ensures program state fun _ next ↦ inv next

variable {inv : σ → Prop}

theorem keeps_pure (value : α) : Keeps inv (pure value : Program σ α) :=
  fun _ hinv ↦ (ensures_pure value).mpr hinv

theorem Keeps.bind (hprogram : Keeps inv program) {rest : α → Program σ β}
    (hrest : ∀ value, Keeps inv (rest value)) : Keeps inv (program >>= rest) := by
  intro state hinv
  rw [ensures_bind]
  exact (hprogram state hinv).mono fun value next hnext ↦ hrest value next hnext

theorem keeps_read (observe : σ → α) : Keeps inv (read observe) :=
  fun _ hinv ↦ (ensures_read observe).mpr hinv

theorem keeps_halt (message : String) : Keeps inv (halt message : Program σ α) :=
  fun _ _ ↦ ensures_halt message

theorem Keeps.ite {condition : Prop} [Decidable condition] {first second : Program σ α}
    (hfirst : Keeps inv first) (hsecond : Keeps inv second) :
    Keeps inv (if condition then first else second) := by
  by_cases hcondition : condition <;> simpa [hcondition]

theorem Keeps.when {condition : Prop} [Decidable condition] {program : Program σ Unit}
    (hprogram : Keeps inv program) : Keeps inv (when condition program) :=
  hprogram.ite (keeps_pure ())

/-- An invariant that does not look at a component is kept by every program of the component. -/
theorem keeps_onPart {part : σ → τ} {replace : σ → τ → σ} (program : Program τ α)
    (hinsensitive : ∀ state component, inv state → inv (replace state component)) :
    Keeps inv (onPart part replace program) :=
  fun state hinv ↦ ensures_onPart fun _ component _ ↦ hinsensitive state component hinv

end Program

end EfesOS.Foundation
