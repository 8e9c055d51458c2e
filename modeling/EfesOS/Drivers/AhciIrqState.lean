import Mathlib.Data.List.Induction

/-!
# The interrupt state of the AHCI driver

`drivers/ahci_irq_state.c` attributes interrupts to requests. `ahci_completion_attribution` says
what `ahci_irq_state_observe` returns after any history of operations in terms of the history alone:
which `begin` is outstanding, and which statuses were recorded since.
-/

set_option autoImplicit false

namespace EfesOS.Drivers

structure AhciIrqState where
  generation : UInt32
  observedGeneration : UInt32
  observedStatus : UInt32
  interruptCount : UInt32
  enabled : Bool
  active : Bool

namespace AhciIrqState

inductive Observation where
  | none
  | complete
  | error

/-- The state after a reset, in which the driver's variable also begins. -/
def reset : AhciIrqState := ⟨0, 0, 0, 0, false, false⟩

def enable (state : AhciIrqState) : AhciIrqState := { state with enabled := true }

def disable (state : AhciIrqState) : AhciIrqState :=
  { state with enabled := false, active := false, observedGeneration := 0, observedStatus := 0 }

def begin (state : AhciIrqState) : UInt32 × AhciIrqState :=
  if state.enabled = false ∨ state.active = true then (0, state)
  else
    let next := if state.generation + 1 = 0 then 1 else state.generation + 1
    (next, { state with
      generation := next
      observedGeneration := 0
      observedStatus := 0
      active := true })

def record (state : AhciIrqState) (status : UInt32) : AhciIrqState :=
  if state.enabled = false ∨ status = 0 then state
  else
    let state := { state with interruptCount := state.interruptCount + 1 }
    if state.active then
      { state with
        observedStatus := state.observedStatus ||| status
        observedGeneration := state.generation }
    else state

def observe (state : AhciIrqState) (generation completionMask errorMask : UInt32) : Observation :=
  if generation = 0 ∨ state.enabled = false ∨ state.active = false ∨
      state.generation ≠ generation ∨ state.observedGeneration ≠ generation then .none
  else if state.observedStatus &&& errorMask ≠ 0 then .error
  else if state.observedStatus &&& completionMask ≠ 0 then .complete else .none

def finish (state : AhciIrqState) (generation : UInt32) : Bool × AhciIrqState :=
  if generation = 0 ∨ state.active = false ∨ state.generation ≠ generation then (false, state)
  else (true, { state with active := false, observedGeneration := 0, observedStatus := 0 })

inductive Operation where
  | reset
  | enable
  | disable
  | begin
  | record (status : UInt32)
  | finish (generation : UInt32)
  | observe (generation completionMask errorMask : UInt32)

def step (state : AhciIrqState) : Operation → AhciIrqState
  | .reset => reset
  | .enable => state.enable
  | .disable => state.disable
  | .begin => state.begin.2
  | .record status => state.record status
  | .finish generation => (state.finish generation).2
  | .observe .. => state

def run (history : List Operation) : AhciIrqState := history.foldl step reset

/-! ### Requests in a history -/

/-- An operation that ends the request of a generation. -/
def Ends (state : AhciIrqState) (generation : UInt32) : Operation → Prop
  | .reset | .disable => True
  | .begin => state.begin.1 ≠ 0
  | .finish other => other = generation
  | _ => False

/-- A `begin` has returned a generation, and no operation since has ended it. -/
inductive Outstanding (earlier : List Operation) (generation : UInt32) : List Operation → Prop where
  | begun (hbegin : (run earlier).begin.1 = generation) (hne : generation ≠ 0) :
      Outstanding earlier generation []
  | kept {since : List Operation} {operation : Operation}
      (h : Outstanding earlier generation since)
      (hkept : ¬(run (earlier ++ .begin :: since)).Ends generation operation) :
      Outstanding earlier generation (since ++ [operation])

def Operation.status : Operation → UInt32
  | .record status => status
  | _ => 0

/-- The union of the statuses that were recorded. -/
def recorded (operations : List Operation) : UInt32 :=
  (operations.map Operation.status).foldl (· ||| ·) 0

/-- The request of a generation is outstanding, with a property of what was recorded for it. -/
def Attributed (history : List Operation) (generation : UInt32) (property : UInt32 → Prop) : Prop :=
  ∃ earlier since, history = earlier ++ .begin :: since ∧ Outstanding earlier generation since ∧
    property (recorded since)

variable {history earlier since : List Operation} {generation status : UInt32}
  {operation : Operation} {state : AhciIrqState} {property : UInt32 → Prop}

theorem run_concat (history : List Operation) (operation : Operation) :
    run (history ++ [operation]) = (run history).step operation := by
  simp [run]

/-- What the variables say about a request. -/
structure Serves (state : AhciIrqState) (generation status : UInt32) : Prop where
  active : state.active = true
  enabled : state.enabled = true
  generation_eq : state.generation = generation
  ne_zero : generation ≠ 0
  status_eq : state.observedStatus = status
  observed : state.observedGeneration = generation ∨ status = 0

theorem serves_begin (hbegin : state.begin.1 ≠ 0) : Serves state.begin.2 state.begin.1 0 := by
  by_cases hrefused : state.enabled = false ∨ state.active = true
  · rw [begin, if_pos hrefused] at hbegin
    exact absurd rfl hbegin
  · rw [begin, if_neg hrefused] at *
    rw [not_or, Bool.not_eq_false] at hrefused
    exact ⟨rfl, hrefused.1, rfl, hbegin, rfl, .inr rfl⟩

section Serves

variable (h : Serves state generation status)
include h

theorem Serves.begin : state.begin = (0, state) := by
  rw [AhciIrqState.begin, if_pos (.inr h.active)]

theorem Serves.step (hkept : ¬state.Ends generation operation) :
    Serves (state.step operation) generation (status ||| operation.status) := by
  cases operation with
  | reset | disable => exact absurd trivial hkept
  | enable => simpa only [Operation.status, UInt32.or_zero] using { h with enabled := rfl }
  | observe => simpa only [Operation.status, UInt32.or_zero, AhciIrqState.step] using h
  | begin => simpa only [Operation.status, UInt32.or_zero, AhciIrqState.step, h.begin] using h
  | finish other =>
    have hother : state.generation ≠ other := fun hsame ↦ hkept (hsame.symm.trans h.generation_eq)
    have hfinish : state.finish other = (false, state) := if_pos (.inr (.inr hother))
    simpa only [Operation.status, UInt32.or_zero, AhciIrqState.step, hfinish] using h
  | record other =>
    rw [Operation.status, AhciIrqState.step, record]
    by_cases hzero : other = 0
    · rw [if_pos (.inr hzero), hzero, UInt32.or_zero]
      exact h
    · rw [if_neg (by simp [h.enabled, hzero])]
      rw [if_pos h.active]
      exact ⟨h.active, h.enabled, h.generation_eq, h.ne_zero, by rw [← h.status_eq],
        .inl h.generation_eq⟩

theorem Serves.observe_eq (completionMask errorMask : UInt32) :
    state.observe generation completionMask errorMask =
      if status &&& errorMask ≠ 0 then .error
      else if status &&& completionMask ≠ 0 then .complete else .none := by
  unfold observe
  rw [h.status_eq]
  by_cases hobserved : state.observedGeneration = generation
  · rw [if_neg (by simp [h.ne_zero, h.enabled, h.active, h.generation_eq, hobserved])]
  · -- nothing was recorded yet
    rw [if_pos (by simp [hobserved]), h.observed.resolve_left hobserved]
    simp

/-- A request that has ended is no longer served. -/
theorem Serves.active_of_ends (hends : state.Ends generation operation) :
    (state.step operation).active = false := by
  cases operation with
  | reset | disable => rfl
  | begin => exact absurd (congrArg Prod.fst h.begin) hends
  | finish other =>
    obtain rfl : other = generation := hends
    rw [AhciIrqState.step, finish, if_neg (by simp [h.ne_zero, h.active, h.generation_eq])]
  | enable | record | observe => exact hends.elim

end Serves

/-- Only a `begin` that succeeds makes the state active. -/
theorem begins_of_active (hidle : ¬state.active = true)
    (hactive : (state.step operation).active = true) :
    operation = .begin ∧ state.begin.1 ≠ 0 := by
  cases operation with
  | begin =>
    refine ⟨rfl, ?_⟩
    by_cases hrefused : state.enabled = false ∨ state.active = true
    · rw [step, begin, if_pos hrefused] at hactive
      exact absurd hactive hidle
    · rw [begin, if_neg hrefused]
      dsimp only
      split_ifs with hwrap
      · decide
      · exact hwrap
  | reset | disable => cases hactive
  | enable | observe => exact absurd hactive hidle
  | record status =>
    rw [step, record] at hactive
    dsimp only at hactive
    split_ifs at hactive <;> exact absurd hactive hidle
  | finish generation =>
    rw [step, finish] at hactive
    split_ifs at hactive
    exact absurd hactive hidle

/-- An outstanding request is the one that the variables serve. -/
theorem Outstanding.serves (h : Outstanding earlier generation since) :
    Serves (run (earlier ++ .begin :: since)) generation (recorded since) := by
  induction h with
  | begun hbegin hne =>
    subst hbegin
    rw [run_concat]
    exact serves_begin hne
  | @kept since operation h hkept ih =>
    rw [← List.cons_append, ← List.append_assoc, run_concat, recorded, List.map_append,
      List.foldl_append]
    exact ih.step hkept

/-- A request that the variables serve is outstanding. -/
theorem attributed_of_active (h : (run history).active = true) :
    ∃ earlier since, history = earlier ++ .begin :: since ∧
      Outstanding earlier (run history).generation since := by
  induction history using List.reverseRecOn with
  | nil => cases h
  | append_singleton history operation ih =>
    rw [run_concat] at h ⊢
    by_cases hactive : (run history).active = true
    · obtain ⟨earlier, since, rfl, houtstanding⟩ := ih hactive
      have hserves := houtstanding.serves
      have hkept : ¬(run (earlier ++ .begin :: since)).Ends _ operation := fun hends ↦
        absurd (hserves.active_of_ends hends) (by rw [h]; decide)
      refine ⟨earlier, since ++ [operation], List.append_assoc _ _ _, ?_⟩
      rw [(hserves.step hkept).generation_eq]
      exact houtstanding.kept hkept
    · obtain ⟨rfl, hbegin⟩ := begins_of_active hactive h
      have hserves := serves_begin hbegin
      exact ⟨history, [], rfl, .begun hserves.generation_eq.symm
        (hserves.generation_eq.trans_ne hserves.ne_zero)⟩

theorem attributed_iff : Attributed history generation property ↔
    (run history).active = true ∧ (run history).generation = generation ∧
      property (run history).observedStatus := by
  constructor
  · rintro ⟨earlier, since, rfl, houtstanding, hproperty⟩
    have hserves := houtstanding.serves
    exact ⟨hserves.active, hserves.generation_eq, by rwa [hserves.status_eq]⟩
  · rintro ⟨hactive, rfl, hproperty⟩
    obtain ⟨earlier, since, rfl, houtstanding⟩ := attributed_of_active hactive
    refine ⟨earlier, since, rfl, houtstanding, ?_⟩
    rwa [← houtstanding.serves.status_eq]

/-- `ahci_irq_state_observe` reports an error or a completion exactly if the last `begin`
that succeeded returned this generation, it has not ended, and a status of the mask was recorded
since. A `begin` while a request is outstanding is refused and changes nothing. -/
theorem ahci_completion_attribution (history : List Operation)
    (generation completionMask errorMask : UInt32) :
    ((run history).observe generation completionMask errorMask = .error ↔
      Attributed history generation fun status ↦ status &&& errorMask ≠ 0) ∧
    ((run history).observe generation completionMask errorMask = .complete ↔
      Attributed history generation fun status ↦
        status &&& errorMask = 0 ∧ status &&& completionMask ≠ 0) ∧
    ((run history).observe generation completionMask errorMask = .none ↔
      ¬Attributed history generation fun status ↦
        status &&& errorMask ≠ 0 ∨ status &&& completionMask ≠ 0) ∧
    (Attributed history generation (fun _ ↦ True) →
      (run history).begin = (0, run history)) := by
  simp only [attributed_iff]
  by_cases hserved : (run history).active = true ∧ (run history).generation = generation
  · obtain ⟨hactive, rfl⟩ := hserved
    obtain ⟨earlier, since, rfl, houtstanding⟩ := attributed_of_active hactive
    have hserves := houtstanding.serves
    rw [hserves.observe_eq, hserves.status_eq, hserves.begin]
    split_ifs <;> simp_all
  · have hnone : (run history).observe generation completionMask errorMask = .none := by
      rw [observe, if_pos]
      rw [not_and_or, Bool.not_eq_true] at hserved
      tauto
    rw [hnone]
    simp [← and_assoc, hserved]

end AhciIrqState

end EfesOS.Drivers
