import Mathlib.Tactic

/-!
# Copying into a memory

A copy loop stores values one after the other. `Logged` is a memory that remembers where something
was stored, so that "nothing was ever stored there" can be said of a run that stores a value back.
-/

set_option autoImplicit false

namespace EfesOS.Foundation

variable {ι β : Type} [DecidableEq ι]

/-- A memory and the places that were stored to, the last first. -/
structure Logged (ι β : Type) where
  contents : ι → β
  stores : List ι

namespace Logged

def store (place : ι) (value : β) (memory : Logged ι β) : Logged ι β where
  contents := Function.update memory.contents place value
  stores := place :: memory.stores

/-- `for (index = 0; index < count; index++) target[index] = source[index]`. -/
def copy (target : ℕ → ι) (source : ℕ → β) (count : ℕ) (memory : Logged ι β) : Logged ι β :=
  (List.range count).foldl (fun memory index ↦ memory.store (target index) (source index)) memory

variable {target : ℕ → ι} {source : ℕ → β} {memory : Logged ι β}

@[simp] theorem copy_zero : memory.copy target source 0 = memory := rfl

theorem copy_succ (count : ℕ) : memory.copy target source (count + 1) =
    (memory.copy target source count).store (target count) (source count) := by
  unfold copy
  rw [List.range_succ, List.foldl_append, List.foldl_cons, List.foldl_nil]

theorem mem_stores_copy {count : ℕ} {place : ι} : place ∈ (memory.copy target source count).stores ↔
    place ∈ memory.stores ∨ ∃ index < count, target index = place := by
  induction count with
  | zero => simp
  | succ count ih =>
    rw [copy_succ, store, List.mem_cons, ih]
    constructor
    · rintro (rfl | hold | ⟨index, hindex, rfl⟩)
      exacts [.inr ⟨count, Nat.lt_succ_self count, rfl⟩, .inl hold,
        .inr ⟨index, hindex.trans (Nat.lt_succ_self count), rfl⟩]
    · rintro (hold | ⟨index, hindex, rfl⟩)
      · exact .inr (.inl hold)
      · rcases Nat.lt_succ_iff_lt_or_eq.1 hindex with hlt | rfl
        · exact .inr (.inr ⟨index, hlt, rfl⟩)
        · exact .inl rfl

theorem contents_copy_of_ne {count : ℕ} {place : ι} (h : ∀ index < count, target index ≠ place) :
    (memory.copy target source count).contents place = memory.contents place := by
  induction count with
  | zero => rfl
  | succ count ih =>
    rw [copy_succ, store]
    change Function.update _ _ _ place = _
    rw [Function.update_of_ne (h count (Nat.lt_succ_self count)).symm]
    exact ih fun index hindex ↦ h index (hindex.trans (Nat.lt_succ_self count))

/-- What is copied to different places arrives. -/
theorem contents_copy {count index : ℕ} (hindex : index < count)
    (hdistinct : ∀ other < count, target other = target index → other = index) :
    (memory.copy target source count).contents (target index) = source index := by
  induction count with
  | zero => exact absurd hindex (Nat.not_lt_zero index)
  | succ count ih =>
    rw [copy_succ, store]
    change Function.update _ _ _ (target index) = _
    by_cases hlast : target index = target count
    · rw [← hlast, Function.update_self, hdistinct count (Nat.lt_succ_self count) hlast.symm]
    · have hne : index ≠ count := fun heq ↦ hlast (congrArg target heq)
      rw [Function.update_of_ne hlast]
      exact ih (by omega) fun other hother ↦ hdistinct other (hother.trans (Nat.lt_succ_self count))

end Logged

end EfesOS.Foundation
