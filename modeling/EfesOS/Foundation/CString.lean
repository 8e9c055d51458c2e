import Mathlib.Data.List.TakeWhile
import Mathlib.Tactic

/-!
# Null-terminated byte strings

A pointer argument of C code is `none` when it is null and otherwise the bytes that can be read
through it; bytes past the end of the list read as zero, so every list is terminated. `text` is
the string a pointer denotes, the bytes before its first terminator.

`boundedLength` is the bounded length loop, `copyString` the bounded copy, `stringEquals` the
comparison of two strings up to their terminators. `boundedLength_eq`, `copyString_eq` and
`stringEquals_iff` state them on texts.
-/

set_option autoImplicit false

namespace EfesOS.Foundation

/-- A pointer to bytes: null, or the bytes readable through it. -/
abbrev Pointer := Option (List UInt8)

namespace CString

/-- The string at some bytes: everything before the first terminator. -/
def text (bytes : List UInt8) : List UInt8 := bytes.takeWhile (· ≠ 0)

/-- The number of bytes before the first terminator, at most `limit`. -/
def boundedLength : List UInt8 → ℕ → ℕ
  | _, 0 => 0
  | [], _ => 0
  | byte :: rest, limit + 1 => if byte ≠ 0 then boundedLength rest limit + 1 else 0

/-- The bytes a bounded copy stores before the terminator it adds: at most `capacity - 1`. -/
def copyString (source : List UInt8) : ℕ → List UInt8
  | 0 => []
  | capacity + 1 => source.take (boundedLength source capacity)

/-- Equality of two strings, compared byte by byte up to the first terminator. -/
def stringEquals : List UInt8 → List UInt8 → Bool
  | [], [] => true
  | [], byte :: _ => byte == 0
  | byte :: _, [] => byte == 0
  | left :: lefts, right :: rights =>
    if left ≠ 0 ∧ right ≠ 0 then
      if left ≠ right then false else stringEquals lefts rights
    else left == right

/-- The bytes of a string literal. -/
def ascii (literal : String) : List UInt8 :=
  literal.toList.map fun character ↦ UInt8.ofNat character.toNat

@[simp] theorem text_nil : text [] = [] := rfl

theorem text_cons (byte : UInt8) (rest : List UInt8) :
    text (byte :: rest) = if byte = 0 then [] else byte :: text rest := by
  unfold text
  by_cases hbyte : byte = 0 <;> simp [hbyte]

variable {bytes : List UInt8}

theorem ne_zero_of_mem_text {byte : UInt8} (h : byte ∈ text bytes) :
    byte ≠ 0 := by
  simpa using List.mem_takeWhile_imp h

/-- A string without terminators is its own text. -/
theorem text_eq_self (h : ∀ byte ∈ bytes, byte ≠ 0) : text bytes = bytes :=
  List.takeWhile_eq_self_iff.mpr (by simpa using h)

@[simp] theorem text_text (bytes : List UInt8) : text (text bytes) = text bytes :=
  text_eq_self fun _ ↦ ne_zero_of_mem_text

theorem boundedLength_eq (bytes : List UInt8) (limit : ℕ) :
    boundedLength bytes limit = min limit (text bytes).length := by
  induction bytes generalizing limit with
  | nil => cases limit <;> simp [boundedLength]
  | cons byte rest ih =>
    cases limit with
    | zero => simp [boundedLength]
    | succ limit =>
      rw [boundedLength, text_cons]
      by_cases hbyte : byte = 0
      · simp [hbyte]
      · simp [hbyte, ih]

/-- The bounded length is where the first terminator is. -/
theorem boundedLength_of_terminated {length limit : ℕ} (hlimit : length ≤ limit)
    (hbytes : ∀ index < length, bytes.getD index 0 ≠ 0) (hend : bytes.getD length 0 = 0) :
    boundedLength bytes limit = length := by
  induction bytes generalizing length limit with
  | nil =>
    cases length with
    | zero => cases limit <;> rfl
    | succ length => exact absurd rfl (hbytes 0 (Nat.succ_pos _))
  | cons byte rest ih =>
    cases length with
    | zero =>
      cases limit with
      | zero => rfl
      | succ limit =>
        have hbyte : byte = 0 := hend
        rw [boundedLength, if_neg (not_not.2 hbyte)]
    | succ length =>
      obtain ⟨limit, rfl⟩ := Nat.exists_eq_add_of_lt hlimit
      have hbyte : byte ≠ 0 := hbytes 0 (Nat.succ_pos _)
      rw [boundedLength, if_pos hbyte, ih (Nat.le_add_right _ _)
        (fun index hindex ↦ hbytes (index + 1) (Nat.succ_lt_succ hindex)) hend]

theorem length_text_of_boundedLength_lt {limit : ℕ} (h : boundedLength bytes limit < limit) :
    boundedLength bytes limit = (text bytes).length := by
  rw [boundedLength_eq] at h ⊢
  omega

/-- Below the first terminator a string agrees with the bytes it is read from. -/
theorem take_eq_take_text {count : ℕ} (h : count ≤ (text bytes).length) :
    bytes.take count = (text bytes).take count := by
  have hprefix : text bytes <+: bytes := List.takeWhile_prefix _
  obtain ⟨rest, hrest⟩ := hprefix
  conv_lhs => rw [← hrest]
  exact List.take_append_of_le_length h

theorem getD_eq_getElem_text {index : ℕ} (hindex : index < (text bytes).length) :
    bytes.getD index 0 = (text bytes)[index] := by
  have hstart : text bytes <+: bytes := List.takeWhile_prefix _
  have hlength : index < bytes.length := lt_of_lt_of_le hindex hstart.length_le
  rw [List.getD_eq_getElem?_getD, List.getElem?_eq_getElem hlength, Option.getD_some,
    hstart.getElem hindex]

/-- Padding a string with terminators does not change it. -/
theorem text_append_replicate (h : ∀ byte ∈ bytes, byte ≠ 0) (count : ℕ) :
    text (bytes ++ List.replicate count 0) = bytes := by
  rw [text, List.takeWhile_append_of_pos (by simpa using h)]
  cases count with
  | zero => simp
  | succ count => simp [List.replicate_succ]

theorem copyString_eq (source : List UInt8) (capacity : ℕ) :
    copyString source capacity = (text source).take (capacity - 1) := by
  cases capacity with
  | zero => simp [copyString]
  | succ capacity =>
    rw [copyString, boundedLength_eq, take_eq_take_text (min_le_right _ _),
      Nat.add_sub_cancel, List.take_eq_take_iff]
    omega

theorem length_copyString_lt (source : List UInt8) {capacity : ℕ} (hcapacity : 0 < capacity) :
    (copyString source capacity).length < capacity := by
  rw [copyString_eq, List.length_take]
  omega

@[simp] theorem text_copyString (source : List UInt8) (capacity : ℕ) :
    text (copyString source capacity) = copyString source capacity := by
  rw [copyString_eq]
  exact text_eq_self fun _ hbyte ↦ ne_zero_of_mem_text (List.mem_of_mem_take hbyte)

/-- A copy with enough room is the text of its source. -/
theorem copyString_of_lt {source : List UInt8} {capacity : ℕ}
    (h : (text source).length < capacity) : copyString source capacity = text source := by
  rw [copyString_eq, List.take_of_length_le (by omega)]

theorem stringEquals_iff (left right : List UInt8) :
    stringEquals left right = true ↔ text left = text right := by
  induction left generalizing right with
  | nil =>
    cases right with
    | nil => simp [stringEquals]
    | cons byte rest => by_cases hbyte : byte = 0 <;> simp [stringEquals, text_cons, hbyte]
  | cons byte rest ih =>
    cases right with
    | nil => by_cases hbyte : byte = 0 <;> simp [stringEquals, text_cons, hbyte]
    | cons other others =>
      rw [stringEquals, text_cons, text_cons]
      by_cases hbyte : byte = 0
      · by_cases hother : other = 0
        · simp [hbyte, hother]
        · simp [hbyte, hother, Ne.symm hother]
      · by_cases hother : other = 0
        · simp [hbyte, hother]
        · by_cases hsame : byte = other
          · simp [hother, hsame, ih]
          · simp [hbyte, hother, hsame]

end CString

end EfesOS.Foundation
