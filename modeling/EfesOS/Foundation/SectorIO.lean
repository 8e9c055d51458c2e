import Mathlib.Logic.Function.Iterate
import Mathlib.Tactic

/-!
# Sector callbacks

A client of a disk sees two callbacks: a read of one sector, which may fail, and a write of one
sector, which reports whether it succeeded. Both pass a device state along, and nothing is assumed
of what they do to it.

A `ReadModel` says what the reads of such a device amount to: a fixed content behind every
readable address, an oracle for the failures, and a state change that does not touch the content.
It leaves the writes open, so that one proof about a client that only reads covers a reliable
disk, a disk that loses power and a controller with faults.
-/

set_option autoImplicit false

namespace EfesOS.Foundation

universe u v

/-- The read and write callbacks of a device with states `σ` and sectors `S`. -/
structure SectorIO (σ : Type u) (S : Type v) where
  read : ℕ → σ → Option S × σ
  write : ℕ → S → σ → Bool × σ

/-- What the reads of a device do: a read of a readable address fails exactly when the state says
so and returns the stored sector otherwise, and in both cases moves on to the next state, which
stores and allows the same. -/
structure ReadModel {σ : Type u} {S : Type v} (io : SectorIO σ S) where
  stored : σ → ℕ → S
  readable : σ → ℕ → Prop
  fails : σ → Bool
  next : σ → σ
  read_eq : ∀ state address, readable state address →
    io.read address state = (if fails state then none else some (stored state address), next state)
  stored_next : ∀ state, stored (next state) = stored state
  readable_next : ∀ state, readable (next state) = readable state

namespace ReadModel

variable {σ : Type u} {S : Type v} {io : SectorIO σ S} (model : ReadModel io)

/-- The state after a number of reads. -/
def advance (reads : ℕ) (state : σ) : σ := model.next^[reads] state

/-- None of the next `reads` reads fails. -/
def Clean (reads : ℕ) (state : σ) : Prop :=
  ∀ index < reads, model.fails (model.advance index state) = false

@[simp]
theorem advance_zero (state : σ) : model.advance 0 state = state := rfl

theorem advance_succ (reads : ℕ) (state : σ) :
    model.advance (reads + 1) state = model.advance reads (model.next state) := rfl

theorem advance_add (first second : ℕ) (state : σ) :
    model.advance (first + second) state = model.advance second (model.advance first state) := by
  unfold advance
  rw [Nat.add_comm, Function.iterate_add_apply]

@[simp]
theorem stored_advance (reads : ℕ) (state : σ) :
    model.stored (model.advance reads state) = model.stored state := by
  induction reads generalizing state with
  | zero => rfl
  | succ reads ih => rw [advance_succ, ih, model.stored_next]

@[simp]
theorem readable_advance (reads : ℕ) (state : σ) :
    model.readable (model.advance reads state) = model.readable state := by
  induction reads generalizing state with
  | zero => rfl
  | succ reads ih => rw [advance_succ, ih, model.readable_next]

theorem clean_zero (state : σ) : model.Clean 0 state := fun _ h ↦ absurd h (Nat.not_lt_zero _)

theorem clean_succ_iff (reads : ℕ) (state : σ) :
    model.Clean (reads + 1) state ↔
      model.fails state = false ∧ model.Clean reads (model.next state) := by
  constructor
  · intro h
    exact ⟨h 0 (Nat.succ_pos _), fun index hindex ↦ h (index + 1) (Nat.succ_lt_succ hindex)⟩
  · rintro ⟨hfirst, hrest⟩ index hindex
    cases index with
    | zero => exact hfirst
    | succ index => exact hrest index (Nat.lt_of_succ_lt_succ hindex)

theorem clean_add_iff (first second : ℕ) (state : σ) :
    model.Clean (first + second) state ↔
      model.Clean first state ∧ model.Clean second (model.advance first state) := by
  induction first generalizing state with
  | zero => simp [clean_zero]
  | succ first ih =>
    rw [Nat.succ_add, clean_succ_iff, ih, clean_succ_iff, advance_succ, and_assoc]

variable {model}

/-- A read that does not fail returns the stored sector. -/
theorem read_of_clean {state : σ} {address : ℕ} (hreadable : model.readable state address)
    (hclean : model.fails state = false) :
    io.read address state = (some (model.stored state address), model.next state) := by
  rw [model.read_eq state address hreadable, hclean]
  rfl

/-- A read that fails returns nothing. -/
theorem read_of_fails {state : σ} {address : ℕ} (hreadable : model.readable state address)
    (hfails : model.fails state = true) : io.read address state = (none, model.next state) := by
  rw [model.read_eq state address hreadable, hfails]
  rfl

end ReadModel

end EfesOS.Foundation
