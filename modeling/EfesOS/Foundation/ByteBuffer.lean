import Mathlib.Tactic

/-!
# Fixed-size byte buffers

A buffer of `size` bytes, read and written by offset, as C code reads and writes an array of
unsigned characters. Reading past the end yields zero and writing past the end does nothing, so
every operation is total; a buffer is determined by its bytes inside the bound (`ext_byteAt`).

Little-endian integers are read and written at an offset (`readU16`, `readU32`, `writeU16`,
`writeU32`). `readU16_writeU16` and `readU32_writeU32` recover a written value, and the
`_of_disjoint` lemmas carry a read over a write to other bytes. `setBytes` copies a list of bytes to
an offset and `slice` reads one back.
-/

set_option autoImplicit false

namespace EfesOS.Foundation

/-- A buffer of exactly `size` bytes. -/
abbrev Buffer (size : ℕ) := Vector UInt8 size

namespace Buffer

variable {size : ℕ}

/-- The byte at an offset, zero past the end. -/
def byteAt (buffer : Buffer size) (offset : ℕ) : UInt8 :=
  if h : offset < size then buffer[offset] else 0

/-- The buffer with one byte replaced; a write past the end changes nothing. -/
def setByte (buffer : Buffer size) (offset : ℕ) (value : UInt8) : Buffer size :=
  buffer.setIfInBounds offset value

/-- The buffer of zero bytes. -/
def zeroed (size : ℕ) : Buffer size := Vector.replicate size 0

variable {first second : Buffer size}

/-- Two buffers with the same bytes inside the bound are equal. -/
theorem ext_byteAt (h : ∀ offset < size, first.byteAt offset = second.byteAt offset) :
    first = second := by
  apply Vector.ext
  intro offset hoffset
  simpa only [byteAt, dif_pos hoffset] using h offset hoffset

@[simp] theorem byteAt_zeroed (offset : ℕ) : (zeroed size).byteAt offset = 0 := by
  unfold byteAt zeroed
  split_ifs <;> simp

theorem byteAt_setByte (buffer : Buffer size) (offset position : ℕ) (value : UInt8) :
    (buffer.setByte offset value).byteAt position =
      if offset = position ∧ position < size then value else buffer.byteAt position := by
  unfold byteAt setByte
  by_cases hposition : position < size
  · simp only [hposition, ↓reduceDIte, and_true, Vector.getElem_setIfInBounds]
  · simp only [hposition, ↓reduceDIte, and_false, ↓reduceIte]

/-- The buffer with a list of bytes copied to an offset. -/
def setBytes (buffer : Buffer size) (offset : ℕ) : List UInt8 → Buffer size
  | [] => buffer
  | value :: rest => (buffer.setByte offset value).setBytes (offset + 1) rest

theorem byteAt_setBytes (bytes : List UInt8) (buffer : Buffer size) (offset position : ℕ) :
    (buffer.setBytes offset bytes).byteAt position =
      if offset ≤ position ∧ position < offset + bytes.length ∧ position < size then
        bytes.getD (position - offset) 0
      else buffer.byteAt position := by
  induction bytes generalizing buffer offset with
  | nil =>
    simp only [setBytes, List.length_nil, add_zero]
    rw [if_neg (by omega)]
  | cons value rest ih =>
    rw [setBytes, ih, byteAt_setByte]
    by_cases hat : position = offset
    · subst hat
      simp
    · by_cases hinside : offset + 1 ≤ position
      · obtain ⟨gap, rfl⟩ : ∃ gap, position = offset + 1 + gap :=
          ⟨position - (offset + 1), by omega⟩
        have hgap : offset + 1 + gap - offset = gap + 1 := by omega
        have hne : ¬(offset = offset + 1 + gap ∧ offset + 1 + gap < size) := by omega
        simp only [hgap, List.getD_cons_succ, List.length_cons, if_neg hne]
        congr 1
        · simp only [eq_iff_iff]
          omega
        · congr 1
          omega
      · rw [if_neg (by omega), if_neg (by omega), if_neg (by omega)]

variable {offset position : ℕ} {bytes : List UInt8}

theorem byteAt_setBytes_of_disjoint (buffer : Buffer size)
    (h : position < offset ∨ offset + bytes.length ≤ position) :
    (buffer.setBytes offset bytes).byteAt position = buffer.byteAt position := by
  rw [byteAt_setBytes, if_neg (by omega)]

theorem byteAt_setBytes_of_mem (buffer : Buffer size) (hfirst : offset ≤ position)
    (hlast : position < offset + bytes.length) (hsize : position < size) :
    (buffer.setBytes offset bytes).byteAt position = bytes.getD (position - offset) 0 := by
  rw [byteAt_setBytes, if_pos ⟨hfirst, hlast, hsize⟩]

/-- The bytes of `length` consecutive offsets. -/
def slice (buffer : Buffer size) (offset length : ℕ) : List UInt8 :=
  (List.range length).map fun index ↦ buffer.byteAt (offset + index)

@[simp] theorem length_slice (buffer : Buffer size) (offset length : ℕ) :
    (buffer.slice offset length).length = length := by
  simp [slice]

theorem slice_append (buffer : Buffer size) (offset before behind : ℕ) :
    buffer.slice offset (before + behind) =
      buffer.slice offset before ++ buffer.slice (offset + before) behind := by
  simp [slice, List.range_add, Function.comp_def, Nat.add_assoc]

theorem slice_congr {length : ℕ} (h : ∀ position, offset ≤ position → position < offset + length →
      first.byteAt position = second.byteAt position) :
    first.slice offset length = second.slice offset length := by
  apply List.map_congr_left
  intro index hindex
  have hbound := List.mem_range.mp hindex
  exact h _ (by omega) (by omega)

/-! ### Little-endian integers -/

/-- The little-endian 16-bit integer at an offset. -/
def readU16 (buffer : Buffer size) (offset : ℕ) : ℕ :=
  (buffer.byteAt offset).toNat ||| (buffer.byteAt (offset + 1)).toNat <<< 8

/-- The little-endian 32-bit integer at an offset. -/
def readU32 (buffer : Buffer size) (offset : ℕ) : ℕ :=
  (buffer.byteAt offset).toNat ||| (buffer.byteAt (offset + 1)).toNat <<< 8 |||
    (buffer.byteAt (offset + 2)).toNat <<< 16 ||| (buffer.byteAt (offset + 3)).toNat <<< 24

/-- Writes the low 16 bits of a value, low byte first. -/
def writeU16 (buffer : Buffer size) (offset value : ℕ) : Buffer size :=
  (buffer.setByte offset (value &&& 0xFF).toUInt8).setByte (offset + 1)
    ((value >>> 8) &&& 0xFF).toUInt8

/-- Writes the low 32 bits of a value, low half first. -/
def writeU32 (buffer : Buffer size) (offset value : ℕ) : Buffer size :=
  (buffer.writeU16 offset (value &&& 0xFFFF)).writeU16 (offset + 2) (value >>> 16)

/-- Disjoint bit fields are joined by addition. -/
theorem or_shiftLeft_eq_add {low : ℕ} (high bits : ℕ) (h : low < 2 ^ bits) :
    low ||| high <<< bits = low + high * 2 ^ bits := by
  rw [Nat.or_comm, ← Nat.shiftLeft_add_eq_or_of_lt h, Nat.shiftLeft_eq, Nat.add_comm]

theorem readU16_eq (buffer : Buffer size) (offset : ℕ) :
    buffer.readU16 offset =
      (buffer.byteAt offset).toNat + (buffer.byteAt (offset + 1)).toNat * 256 :=
  or_shiftLeft_eq_add _ 8 (UInt8.toNat_lt _)

theorem readU32_eq (buffer : Buffer size) (offset : ℕ) :
    buffer.readU32 offset = (buffer.byteAt offset).toNat +
      (buffer.byteAt (offset + 1)).toNat * 256 + (buffer.byteAt (offset + 2)).toNat * 65536 +
        (buffer.byteAt (offset + 3)).toNat * 16777216 := by
  have h0 := UInt8.toNat_lt (buffer.byteAt offset)
  have h1 := UInt8.toNat_lt (buffer.byteAt (offset + 1))
  have h2 := UInt8.toNat_lt (buffer.byteAt (offset + 2))
  unfold readU32
  rw [or_shiftLeft_eq_add _ 8 (by omega), or_shiftLeft_eq_add _ 16 (by omega),
    or_shiftLeft_eq_add _ 24 (by omega)]
  norm_num

theorem readU16_lt (buffer : Buffer size) (offset : ℕ) : buffer.readU16 offset < 65536 := by
  have h0 := UInt8.toNat_lt (buffer.byteAt offset)
  have h1 := UInt8.toNat_lt (buffer.byteAt (offset + 1))
  rw [readU16_eq]
  omega

theorem readU32_lt (buffer : Buffer size) (offset : ℕ) :
    buffer.readU32 offset < 4294967296 := by
  have h0 := UInt8.toNat_lt (buffer.byteAt offset)
  have h1 := UInt8.toNat_lt (buffer.byteAt (offset + 1))
  have h2 := UInt8.toNat_lt (buffer.byteAt (offset + 2))
  have h3 := UInt8.toNat_lt (buffer.byteAt (offset + 3))
  rw [readU32_eq]
  omega

theorem toNat_lowByte (value : ℕ) : ((value &&& 0xFF).toUInt8).toNat = value % 256 := by
  have hmask : value &&& 0xFF = value % 256 := Nat.and_two_pow_sub_one_eq_mod value 8
  rw [hmask, Nat.toUInt8, UInt8.toNat_ofNat']
  omega

theorem byteAt_writeU16 (buffer : Buffer size) (offset value position : ℕ) :
    (buffer.writeU16 offset value).byteAt position =
      if offset + 1 = position ∧ position < size then ((value >>> 8) &&& 0xFF).toUInt8
      else if offset = position ∧ position < size then (value &&& 0xFF).toUInt8
      else buffer.byteAt position := by
  rw [writeU16, byteAt_setByte, byteAt_setByte]

@[simp] theorem byteAt_writeU16_of_disjoint (buffer : Buffer size) (value : ℕ)
    (h : position < offset ∨ offset + 2 ≤ position) :
    (buffer.writeU16 offset value).byteAt position = buffer.byteAt position := by
  rw [byteAt_writeU16, if_neg (by omega), if_neg (by omega)]

@[simp] theorem byteAt_writeU32_of_disjoint (buffer : Buffer size) (value : ℕ)
    (h : position < offset ∨ offset + 4 ≤ position) :
    (buffer.writeU32 offset value).byteAt position = buffer.byteAt position := by
  rw [writeU32, byteAt_writeU16_of_disjoint _ _ (by omega),
    byteAt_writeU16_of_disjoint _ _ (by omega)]

theorem readU16_congr (h : ∀ position, offset ≤ position → position < offset + 2 →
      first.byteAt position = second.byteAt position) :
    first.readU16 offset = second.readU16 offset := by
  unfold readU16
  rw [h offset (by omega) (by omega), h (offset + 1) (by omega) (by omega)]

theorem readU32_congr (h : ∀ position, offset ≤ position → position < offset + 4 →
      first.byteAt position = second.byteAt position) :
    first.readU32 offset = second.readU32 offset := by
  unfold readU32
  rw [h offset (by omega) (by omega), h (offset + 1) (by omega) (by omega),
    h (offset + 2) (by omega) (by omega), h (offset + 3) (by omega) (by omega)]

section

variable (buffer : Buffer size)
include buffer

@[simp] theorem readU16_writeU16 {value : ℕ} (hoffset : offset + 2 ≤ size) (hvalue : value < 65536) :
    (buffer.writeU16 offset value).readU16 offset = value := by
  rw [readU16_eq, byteAt_writeU16, byteAt_writeU16, if_neg (by omega), if_pos (by omega),
    if_pos (by omega), toNat_lowByte, toNat_lowByte, Nat.shiftRight_eq_div_pow]
  omega

@[simp] theorem readU16_writeU16_of_disjoint (value : ℕ)
    (h : position + 2 ≤ offset ∨ offset + 2 ≤ position) :
    (buffer.writeU16 offset value).readU16 position = buffer.readU16 position :=
  readU16_congr fun _ _ _ ↦ byteAt_writeU16_of_disjoint _ _ (by omega)

@[simp] theorem readU16_writeU32_of_disjoint (value : ℕ)
    (h : position + 2 ≤ offset ∨ offset + 4 ≤ position) :
    (buffer.writeU32 offset value).readU16 position = buffer.readU16 position :=
  readU16_congr fun _ _ _ ↦ byteAt_writeU32_of_disjoint _ _ (by omega)

@[simp] theorem readU16_setBytes_of_disjoint
    (h : position + 2 ≤ offset ∨ offset + bytes.length ≤ position) :
    (buffer.setBytes offset bytes).readU16 position = buffer.readU16 position :=
  readU16_congr fun _ _ _ ↦ byteAt_setBytes_of_disjoint _ (by omega)

/-- A 32-bit integer is its two 16-bit halves. -/
theorem readU32_eq_readU16 (offset : ℕ) :
    buffer.readU32 offset = buffer.readU16 offset + buffer.readU16 (offset + 2) * 65536 := by
  rw [readU32_eq, readU16_eq, readU16_eq]
  ring

@[simp] theorem readU32_writeU32 {value : ℕ} (hoffset : offset + 4 ≤ size) (hvalue : value < 4294967296) :
    (buffer.writeU32 offset value).readU32 offset = value := by
  have hmask : value &&& 0xFFFF = value % 65536 := Nat.and_two_pow_sub_one_eq_mod value 16
  have hhigh : value >>> 16 = value / 65536 := Nat.shiftRight_eq_div_pow value 16
  rw [readU32_eq_readU16, writeU32, readU16_writeU16 _ (by omega) (by omega),
    readU16_writeU16_of_disjoint _ _ (by omega), readU16_writeU16 _ (by omega) (by omega), hmask,
    hhigh]
  omega

@[simp] theorem readU32_writeU16_of_disjoint (value : ℕ)
    (h : position + 4 ≤ offset ∨ offset + 2 ≤ position) :
    (buffer.writeU16 offset value).readU32 position = buffer.readU32 position :=
  readU32_congr fun _ _ _ ↦ byteAt_writeU16_of_disjoint _ _ (by omega)

@[simp] theorem readU32_writeU32_of_disjoint (value : ℕ)
    (h : position + 4 ≤ offset ∨ offset + 4 ≤ position) :
    (buffer.writeU32 offset value).readU32 position = buffer.readU32 position :=
  readU32_congr fun _ _ _ ↦ byteAt_writeU32_of_disjoint _ _ (by omega)

@[simp] theorem readU32_setBytes_of_disjoint
    (h : position + 4 ≤ offset ∨ offset + bytes.length ≤ position) :
    (buffer.setBytes offset bytes).readU32 position = buffer.readU32 position :=
  readU32_congr fun _ _ _ ↦ byteAt_setBytes_of_disjoint _ (by omega)

end

/-- A 16-bit integer determines its bytes. -/
theorem byteAt_eq_of_readU16_eq (h : first.readU16 offset = second.readU16 offset)
    (hfirst : offset ≤ position) (hlast : position < offset + 2) :
    first.byteAt position = second.byteAt position := by
  have h0 := UInt8.toNat_lt (first.byteAt offset)
  have h1 := UInt8.toNat_lt (second.byteAt offset)
  rw [readU16_eq, readU16_eq] at h
  obtain rfl | rfl : position = offset ∨ position = offset + 1 := by omega
  · exact UInt8.toNat_inj.mp (by omega)
  · exact UInt8.toNat_inj.mp (by omega)

/-- A 32-bit integer determines its bytes. -/
theorem byteAt_eq_of_readU32_eq (h : first.readU32 offset = second.readU32 offset)
    (hfirst : offset ≤ position) (hlast : position < offset + 4) :
    first.byteAt position = second.byteAt position := by
  have h0 := readU16_lt first offset
  have h1 := readU16_lt second offset
  rw [readU32_eq_readU16, readU32_eq_readU16] at h
  by_cases hhalf : position < offset + 2
  · exact byteAt_eq_of_readU16_eq (by omega) hfirst hhalf
  · have hhigh : first.readU16 (offset + 2) = second.readU16 (offset + 2) := by omega
    exact byteAt_eq_of_readU16_eq hhigh (by omega) (by omega)

theorem readU32_zeroed (offset : ℕ) : (zeroed size).readU32 offset = 0 := by
  simp [readU32_eq]

end Buffer

end EfesOS.Foundation
