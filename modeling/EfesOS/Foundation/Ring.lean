import Mathlib.Tactic

/-!
# Circular buffers

A circular buffer of `capacity` slots keeps its entries in the slots `index capacity tail offset`,
for the offsets below its count; `contents` is the list of those entries, oldest first. Slots are
a function of their number, so only the slots the indices reach matter.

An entry is appended at the slot after the last one (`contents_push`). An entry inside the buffer
is removed in either of two ways: `shiftUp` moves every older entry one slot towards it and the
tail advances over the freed slot (`contents_shiftUp`); `shiftDown` moves every newer entry one slot
back and the last slot is given up (`contents_shiftDown`). Both erase exactly that entry from the
contents, at every position of the tail.
-/

set_option autoImplicit false

namespace EfesOS.Foundation.Ring

variable {α : Type*} {capacity tail count : ℕ} {slots : ℕ → α}

/-- The slot that holds the entry at an offset from the tail. -/
def index (capacity tail offset : ℕ) : ℕ := (tail + offset) % capacity

/-- The entries of the buffer, oldest first. -/
def contents (capacity : ℕ) (slots : ℕ → α) (tail count : ℕ) : List α :=
  (List.range count).map fun offset ↦ slots (index capacity tail offset)

variable {offset : ℕ}

theorem index_inj {other : ℕ} (hoffset : offset < capacity) (hother : other < capacity) :
    index capacity tail offset = index capacity tail other ↔ offset = other := by
  refine ⟨fun heq ↦ ?_, fun heq ↦ heq ▸ rfl⟩
  have hcancel : offset ≡ other [MOD capacity] := Nat.ModEq.add_left_cancel' tail heq
  exact hcancel.eq_of_lt_of_lt hoffset hother

theorem index_advance (offset : ℕ) :
    index capacity ((tail + 1) % capacity) offset = index capacity tail (offset + 1) := by
  unfold index
  rw [Nat.mod_add_mod, Nat.add_assoc, Nat.add_comm 1 offset]

theorem index_retreat (hcapacity : 0 < capacity) (offset : ℕ) :
    (index capacity tail (offset + 1) + capacity - 1) % capacity = index capacity tail offset := by
  unfold index
  rw [Nat.add_sub_assoc hcapacity, Nat.mod_add_mod, Nat.add_assoc tail,
    Nat.add_assoc offset, Nat.add_sub_cancel' hcapacity, ← Nat.add_assoc, Nat.add_mod_right]

variable {place : ℕ}

/-- Reading one offset after writing another. -/
theorem update_index {here : ℕ} (hhere : here < capacity) (hplace : place < capacity) (value : α) :
    Function.update slots (index capacity tail here) value (index capacity tail place) =
      if place = here then value else slots (index capacity tail place) := by
  rw [Function.update_apply]
  simp only [index_inj hplace hhere]

@[simp] theorem length_contents : (contents capacity slots tail count).length = count := by
  simp [contents]

@[simp] theorem getElem_contents (hoffset : offset < (contents capacity slots tail count).length) :
    (contents capacity slots tail count)[offset] = slots (index capacity tail offset) := by
  simp [contents]

theorem contents_congr {other : ℕ → α}
    (hagree : ∀ offset < count,
      other (index capacity tail offset) = slots (index capacity tail offset)) :
    contents capacity other tail count = contents capacity slots tail count :=
  List.map_congr_left fun offset hmem ↦ hagree offset (List.mem_range.mp hmem)

theorem contents_succ : contents capacity slots tail (count + 1) =
    contents capacity slots tail count ++ [slots (index capacity tail count)] := by
  simp [contents, List.range_succ]

/-- Writing the slot after the last entry appends to the contents while there is room. -/
theorem contents_push (hroom : count < capacity) (value : α) :
    contents capacity (Function.update slots (index capacity tail count) value) tail (count + 1) =
      contents capacity slots tail count ++ [value] := by
  rw [contents_succ, Function.update_self]
  congr 1
  apply contents_congr
  intro offset hoffset
  rw [update_index hroom (hoffset.trans hroom), if_neg hoffset.ne]

/-- The first offset whose entry satisfies a test, as a scan from the tail finds it. -/
theorem find?_range_eq_findIdx? (test : α → Bool) :
    (List.range count).find? (fun offset ↦ test (slots (index capacity tail offset))) =
      (contents capacity slots tail count).findIdx? test := by
  apply Option.ext
  intro offset
  rw [List.find?_range_eq_some, List.findIdx?_eq_some_iff_getElem]
  simp only [length_contents, getElem_contents, List.mem_range, Bool.not_eq_true']
  constructor
  · rintro ⟨htest, hbound, hearlier⟩
    exact ⟨hbound, htest, fun other hother ↦ by simpa using hearlier other hother⟩
  · rintro ⟨hbound, htest, hearlier⟩
    exact ⟨htest, hbound, fun other hother ↦ by simpa using hearlier other hother⟩

/-- The number of entries that satisfy a test, as a scan from the tail counts them. -/
theorem foldl_range_eq_countP (test : α → Bool) :
    (List.range count).foldl
        (fun found offset ↦ if test (slots (index capacity tail offset)) then found + 1 else found)
        0 =
      (contents capacity slots tail count).countP test := by
  induction count with
  | zero => rfl
  | succ count ih =>
    rw [List.range_succ, List.foldl_append, ih, contents_succ, List.countP_append,
      List.countP_singleton, List.foldl_cons, List.foldl_nil]
    split_ifs <;> rfl

/-! ### Removing an entry by moving the older ones up -/

/-- Copy the entry before `position` into it, then the one before that, `offset` times. -/
def shiftUp (capacity : ℕ) : ℕ → ℕ → (ℕ → α) → ℕ → α
  | 0, _, slots => slots
  | offset + 1, position, slots =>
    shiftUp capacity offset ((position + capacity - 1) % capacity)
      (Function.update slots position (slots ((position + capacity - 1) % capacity)))

theorem shiftUp_index (hoffset : offset < capacity) (hplace : place < capacity) :
    shiftUp capacity offset (index capacity tail offset) slots (index capacity tail place) =
      if offset < place then slots (index capacity tail place)
      else slots (index capacity tail (place - 1)) := by
  induction offset generalizing slots with
  | zero =>
    rw [shiftUp]
    split_ifs with hbefore
    · rfl
    · rw [show place = 0 by omega]
  | succ offset ih =>
    have hcapacity : 0 < capacity := by omega
    rw [shiftUp, index_retreat hcapacity, ih (by omega)]
    rw [update_index hoffset hplace, update_index hoffset (by omega)]
    -- Only the slot written in this round differs, and the later rounds no longer reach it.
    by_cases hwritten : place = offset + 1
    · subst hwritten
      rw [if_pos (by omega), if_pos rfl, if_neg (by omega), Nat.add_sub_cancel]
    · by_cases hbefore : offset < place
      · rw [if_pos hbefore, if_neg hwritten, if_pos (by omega)]
      · rw [if_neg hbefore, if_neg (by omega), if_neg (by omega)]

/-- Moving the older entries up and advancing the tail erases the entry at `offset`. -/
theorem contents_shiftUp (hoffset : offset < count) (hcount : count ≤ capacity) :
    contents capacity (shiftUp capacity offset (index capacity tail offset) slots)
        ((tail + 1) % capacity) (count - 1) =
      (contents capacity slots tail count).eraseIdx offset := by
  apply List.ext_getElem
  · simp [List.length_eraseIdx, hoffset]
  · intro place hplace _
    rw [length_contents] at hplace
    rw [getElem_contents, index_advance, shiftUp_index (by omega) (by omega),
      List.getElem_eraseIdx, Nat.add_sub_cancel]
    simp only [getElem_contents]
    by_cases hbefore : place < offset
    · rw [if_neg (by omega), dif_pos hbefore]
    · rw [if_pos (by omega), dif_neg hbefore]

/-! ### Removing an entry by moving the newer ones down -/

/-- Copy the entry after offset `shift` into it, then the next one, `remaining` times. -/
def shiftDown (capacity tail : ℕ) : ℕ → ℕ → (ℕ → α) → ℕ → α
  | 0, _, slots => slots
  | remaining + 1, shift, slots =>
    shiftDown capacity tail remaining (shift + 1)
      (Function.update slots (index capacity tail shift) (slots (index capacity tail (shift + 1))))

theorem shiftDown_index {remaining shift : ℕ} (hbound : shift + remaining < capacity)
    (hplace : place < capacity) :
    shiftDown capacity tail remaining shift slots (index capacity tail place) =
      if shift ≤ place ∧ place < shift + remaining then slots (index capacity tail (place + 1))
      else slots (index capacity tail place) := by
  induction remaining generalizing shift slots with
  | zero => rw [shiftDown, if_neg (by omega)]
  | succ remaining ih =>
    rw [shiftDown, ih (by omega)]
    by_cases hinside : shift + 1 ≤ place ∧ place < shift + 1 + remaining
    · rw [if_pos hinside, if_pos (by omega), update_index (by omega) (by omega),
        if_neg (by omega)]
    · rw [if_neg hinside, update_index (by omega) hplace]
      by_cases hhere : place = shift
      · rw [if_pos hhere, if_pos (by omega), hhere]
      · rw [if_neg hhere, if_neg (by omega)]

/-- Moving the newer entries down and giving up the last slot erases the entry at `offset`. -/
theorem contents_shiftDown (hoffset : offset < count) (hcount : count ≤ capacity) :
    contents capacity (shiftDown capacity tail (count - 1 - offset) offset slots) tail (count - 1) =
      (contents capacity slots tail count).eraseIdx offset := by
  apply List.ext_getElem
  · simp [List.length_eraseIdx, hoffset]
  · intro place hplace _
    rw [length_contents] at hplace
    rw [getElem_contents, shiftDown_index (by omega) (by omega), List.getElem_eraseIdx]
    simp only [getElem_contents]
    by_cases hbefore : place < offset
    · rw [if_neg (by omega), dif_pos hbefore]
    · rw [if_pos (by omega), dif_neg hbefore]

end EfesOS.Foundation.Ring
