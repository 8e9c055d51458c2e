import Mathlib.Tactic

/-!
# Checked computations

C code goes wrong silently: an unsigned sum wraps, an array is read past its end. A checked
computation stops there with a `Fault`, so that code in which nothing of the kind happens is code
whose checked form never stops.

`Yields allowed computation post` says that a computation ends with a value that satisfies the
postcondition or stops with a fault that is allowed. The `yields_` lemmas compute it along the text
of a program.
-/

set_option autoImplicit false

namespace EfesOS.Foundation

/-- How a computation goes wrong. -/
inductive Fault where
  | wraps
  | outOfBounds
  | strayStore
  | panic (message : String)

abbrev Checked := Except Fault

namespace Checked

variable {ε α β : Type}

/-! ### Postconditions -/

/-- A computation ends as the postcondition says or stops as is allowed. -/
structure Yields (allowed : ε → Prop) (computation : Except ε α) (post : α → Prop) : Prop where
  ok : ∀ value, computation = .ok value → post value
  error : ∀ fault, computation = .error fault → allowed fault

section Yields

variable {allowed : ε → Prop} {computation : Except ε α} {post : α → Prop}

@[simp] theorem yields_ok {value : α} : Yields allowed (.ok value : Except ε α) post ↔ post value :=
  ⟨fun h ↦ h.ok value rfl, fun hpost ↦
    ⟨fun _ hvalue ↦ Except.ok.inj hvalue ▸ hpost, fun _ hfault ↦ nomatch hfault⟩⟩

@[simp] theorem yields_pure {value : α} :
    Yields allowed (pure value : Except ε α) post ↔ post value := yields_ok

@[simp] theorem yields_error {fault : ε} :
    Yields allowed (.error fault : Except ε α) post ↔ allowed fault :=
  ⟨fun h ↦ h.error fault rfl, fun hallowed ↦
    ⟨fun _ hvalue ↦ (nomatch hvalue), fun _ hfault ↦ Except.error.inj hfault ▸ hallowed⟩⟩

@[simp] theorem yields_throw {fault : ε} :
    Yields allowed (throw fault : Except ε α) post ↔ allowed fault := yields_error

theorem ok_bind (value : α) (rest : α → Except ε β) : (Except.ok value >>= rest) = rest value := rfl

@[simp] theorem yields_bind {rest : α → Except ε β} {post : β → Prop} :
    Yields allowed (computation >>= rest) post ↔
      Yields allowed computation fun value ↦ Yields allowed (rest value) post := by
  cases computation with
  | ok value => rw [ok_bind, yields_ok]
  | error fault =>
    rw [show (Except.error fault >>= rest) = .error fault from rfl, yields_error, yields_error]

@[simp] theorem yields_ite {condition : Prop} [Decidable condition] {first second : Except ε α} :
    Yields allowed (if condition then first else second) post ↔
      (condition → Yields allowed first post) ∧ (¬condition → Yields allowed second post) := by
  by_cases hcondition : condition <;> simp [hcondition]

/-- A computation that found nothing returns nothing. -/
theorem yields_none {found : α → Prop} : Yields allowed (pure none : Except ε (Option α))
    fun result ↦ ∀ value, result = some value → found value :=
  yields_pure.2 fun _ hnone ↦ nomatch hnone

theorem yields_some {found : α → Prop} {value : α} :
    Yields allowed (pure (some value) : Except ε (Option α))
      (fun result ↦ ∀ other, result = some other → found other) ↔ found value :=
  yields_pure.trans ⟨fun h ↦ h value rfl, fun hfound _ hvalue ↦ Option.some.inj hvalue ▸ hfound⟩

theorem Yields.mono {weaker : α → Prop} (h : Yields allowed computation post)
    (himplies : ∀ value, post value → weaker value) : Yields allowed computation weaker :=
  ⟨fun value hvalue ↦ himplies value (h.ok value hvalue), h.error⟩

theorem Yields.bind {rest : α → Except ε β} {final : β → Prop}
    (h : Yields allowed computation post)
    (hrest : ∀ value, post value → Yields allowed (rest value) final) :
    Yields allowed (computation >>= rest) final := yields_bind.2 (h.mono hrest)

/-- A test that ends the computation. -/
theorem yields_unless {condition : Prop} [Decidable condition] {value : α} {rest : Except ε α}
    (hvalue : post value) (hrest : ¬condition → Yields allowed rest post) :
    Yields allowed (if condition then pure value else rest) post :=
  yields_ite.2 ⟨fun _ ↦ yields_pure.2 hvalue, hrest⟩

/-- A computation that may not stop returns. -/
theorem Yields.exists_ok (h : Yields allowed computation post) (hnever : ∀ fault, ¬allowed fault) :
    ∃ value, computation = .ok value ∧ post value := by
  cases computation with
  | ok value => exact ⟨value, rfl, h.ok value rfl⟩
  | error fault => exact absurd (h.error fault rfl) (hnever fault)

end Yields

/-! ### Arithmetic -/

def add (first second : UInt32) : Checked UInt32 :=
  if first.toNat + second.toNat < 2 ^ 32 then .ok (first + second) else .error .wraps

def sub (first second : UInt32) : Checked UInt32 :=
  if second ≤ first then .ok (first - second) else .error .wraps

def mul (first second : UInt32) : Checked UInt32 :=
  if first.toNat * second.toNat < 2 ^ 32 then .ok (first * second) else .error .wraps

section Arithmetic

variable {allowed : Fault → Prop} {first second : UInt32} {post : UInt32 → Prop}

@[simp] theorem yields_add : Yields allowed (add first second) post ↔
    (first.toNat + second.toNat < 2 ^ 32 → post (first + second)) ∧
      (¬first.toNat + second.toNat < 2 ^ 32 → allowed .wraps) := by
  simp only [add, yields_ite, yields_ok, yields_error]

theorem add_eq (hfits : first.toNat + second.toNat < 2 ^ 32) :
    add first second = .ok (first + second) := if_pos hfits

theorem sub_eq (hle : second ≤ first) : sub first second = .ok (first - second) := if_pos hle

theorem mul_eq (hfits : first.toNat * second.toNat < 2 ^ 32) :
    mul first second = .ok (first * second) := if_pos hfits

/-- A sum that fits is computed. -/
theorem yields_add_of_lt (hfits : first.toNat + second.toNat < 2 ^ 32)
    (hpost : (first + second).toNat = first.toNat + second.toNat → post (first + second)) :
    Yields allowed (add first second) post := by
  refine yields_add.2 ⟨fun _ ↦ hpost ?_, fun hnot ↦ absurd hfits hnot⟩
  rw [UInt32.toNat_add, Nat.mod_eq_of_lt hfits]

end Arithmetic

/-! ### Arrays -/

/-- Read an array that has so many elements. -/
def fetch {α : Type} (array : ℕ → α) (size index : UInt32) : Checked α :=
  if index < size then .ok (array index.toNat) else .error .outOfBounds

/-- Write to the end of a list that stands for the first elements of an array. -/
def push {α : Type} (capacity : ℕ) (items : List α) (item : α) : Checked (List α) :=
  if items.length < capacity then .ok (items ++ [item]) else .error .outOfBounds

section Arrays

variable {allowed : Fault → Prop}

theorem yields_push {capacity : ℕ} {items : List α} {item : α} {post : List α → Prop} :
    Yields allowed (push capacity items item) post ↔
      (items.length < capacity → post (items ++ [item])) ∧
        (¬items.length < capacity → allowed .outOfBounds) := by
  simp only [push, yields_ite, yields_ok, yields_error]

end Arrays

end Checked

end EfesOS.Foundation
