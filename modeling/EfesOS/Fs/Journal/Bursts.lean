import EfesOS.Fs.Journal.Canonical

/-!
# Damaged records

The checksum of `fs/journal.c` finds every burst of at most 32 bits. A step of the division is
linear in exclusive or (`crc32Bit_xor`), and a remainder whose high bits are clear has only moved
down (`toNat_eq_of_crc32Bits`), so two runs over at most four bytes that start alike and end alike
have read the same bytes (`crc32Update_close`). What the checksum does not cover is compared or has
to be zero, so a record that is damaged in a short window is not decoded (`burst_is_detected`).
-/

set_option autoImplicit false

namespace EfesOS.Fs.Journal

open EfesOS.Foundation

/-! ### The division -/

theorem crc32Bit_eq (crc : BitVec 32) :
    crc32Bit crc = (crc >>> 1) ^^^ (if crc.getLsbD 0 then 0xEDB88320 else 0) := by
  have hlow : crc &&& 1 ≠ 0 ↔ crc.getLsbD 0 = true := by
    change crc &&& 1#32 ≠ 0#32 ↔ _
    rw [BitVec.and_one_eq_setWidth_ofBool_getLsbD]
    cases crc.getLsbD 0 <;> decide
  rw [crc32Bit]
  simp only [hlow]

theorem crc32Bit_xor (first second : BitVec 32) :
    crc32Bit (first ^^^ second) = crc32Bit first ^^^ crc32Bit second := by
  have hterm : ∀ x y : Bool, (if (x ^^ y) = true then (0xEDB88320 : BitVec 32) else 0) =
      (if x then 0xEDB88320 else 0) ^^^ (if y then 0xEDB88320 else 0) := by decide
  rw [crc32Bit_eq, crc32Bit_eq, crc32Bit_eq, BitVec.getLsbD_xor, hterm,
    BitVec.ushiftRight_xor_distrib]
  ac_rfl

theorem crc32Bits_xor (count : ℕ) (first second : BitVec 32) :
    crc32Bit^[count] (first ^^^ second) = crc32Bit^[count] first ^^^ crc32Bit^[count] second := by
  induction count generalizing first second with
  | zero => rfl
  | succ count ih => exact (congrArg _ (crc32Bit_xor first second)).trans (ih _ _)

/-- The high bit of a remainder is the bit that was divided out. -/
theorem toNat_eq_of_crc32Bit {crc : BitVec 32} (hhigh : (crc32Bit crc).toNat < 2147483648) :
    crc.toNat = 2 * (crc32Bit crc).toNat := by
  have hclear : (crc32Bit crc).getLsbD 31 = false := Nat.testBit_lt_two_pow hhigh
  rw [crc32Bit_eq] at hclear ⊢
  cases hlow : crc.getLsbD 0 with
  | false =>
    have heven : crc.toNat % 2 = 0 := by simpa [BitVec.getLsbD] using hlow
    simp
    omega
  | true => simp [hlow] at hclear

theorem toNat_eq_of_crc32Bits {count : ℕ} (hcount : count ≤ 32) {crc : BitVec 32}
    (hhigh : (crc32Bit^[count] crc).toNat < 2 ^ (32 - count)) :
    crc.toNat = 2 ^ count * (crc32Bit^[count] crc).toNat := by
  induction count generalizing crc with
  | zero => simp
  | succ count ih =>
    rw [Function.iterate_succ_apply] at hhigh ⊢
    have hrest := ih (Nat.le_of_succ_le hcount)
      (hhigh.trans_le (Nat.pow_le_pow_right (by decide) (by omega)))
    have hclear : (crc32Bit crc).toNat < 2147483648 :=
      calc
        _ < 2 ^ count * 2 ^ (32 - (count + 1)) := by
          rw [hrest]
          gcongr
        _ = 2147483648 := by rw [← Nat.pow_add, show count + (32 - (count + 1)) = 31 by omega]
    rw [toNat_eq_of_crc32Bit hclear, hrest, Nat.pow_succ]
    ring

/-- Two runs over at most four bytes that come to the same remainder have started close together,
and if they have started alike, they have read the same. -/
theorem crc32Update_close {first second : List UInt8} (hlength : first.length = second.length)
    (hshort : first.length ≤ 4) {crc other : BitVec 32}
    (hsame : crc32Update crc first = crc32Update other second) :
    (crc ^^^ other).toNat < 2 ^ (8 * first.length) ∧ (crc = other → first = second) := by
  induction first generalizing second crc other with
  | nil =>
    obtain rfl := List.length_eq_zero_iff.1 hlength.symm
    cases hsame
    simp
  | cons byte rest ih =>
    obtain ⟨byte', rest', rfl⟩ := List.exists_cons_of_length_eq_add_one hlength.symm
    rw [List.length_cons] at hshort ⊢
    obtain ⟨hclose, hrest⟩ := ih (Nat.succ.inj hlength) (Nat.le_of_succ_le hshort) hsame
    obtain ⟨bits, hbits⟩ : ∃ bits, byte.toBitVec ^^^ byte'.toBitVec = bits := ⟨_, rfl⟩
    have hmixed : crc ^^^ byte.toBitVec.setWidth 32 ^^^ (other ^^^ byte'.toBitVec.setWidth 32) =
        crc ^^^ other ^^^ bits.setWidth 32 := by
      rw [← hbits, BitVec.setWidth_xor]
      ac_rfl
    have hsmall : (bits.setWidth 32).toNat < 2 ^ 8 := by
      exact bits.isLt
    rw [crc32Byte, crc32Byte, ← crc32Bits_xor, hmixed] at hclose
    have hmoved := toNat_eq_of_crc32Bits (by decide)
      (hclose.trans_le (Nat.pow_le_pow_right (by decide) (by omega)))
    refine ⟨?_, ?_⟩
    · have hback : crc ^^^ other =
          crc ^^^ other ^^^ bits.setWidth 32 ^^^ bits.setWidth 32 := by
        rw [BitVec.xor_assoc, BitVec.xor_self, BitVec.xor_zero]
      rw [hback, BitVec.toNat_xor]
      refine Nat.xor_lt_two_pow ?_ (hsmall.trans_le (Nat.pow_le_pow_right (by decide) (by omega)))
      rw [hmoved, Nat.mul_succ, Nat.add_comm, Nat.pow_add]
      exact Nat.mul_lt_mul_of_pos_left hclose (by decide)
    · rintro rfl
      rw [BitVec.xor_self, BitVec.zero_xor] at hmoved
      have hzero : bits.toNat = 0 := by
        rw [BitVec.toNat_setWidth_of_le (by decide)] at hmoved hsmall
        omega
      have hequal : byte = byte' := UInt8.toBitVec_inj.1
        (BitVec.xor_eq_zero_iff.1 (hbits.trans (BitVec.eq_of_toNat_eq hzero)))
      subst hequal
      rw [hrest rfl]

theorem crc32Bit_injective : Function.Injective crc32Bit := by
  intro first second hsame
  have hzero : crc32Bit (first ^^^ second) = 0 := by
    rw [crc32Bit_xor, hsame, BitVec.xor_self]
    rfl
  have hequal := @toNat_eq_of_crc32Bit (first ^^^ second) (by rw [hzero]; decide)
  rw [hzero] at hequal
  exact BitVec.xor_eq_zero_iff.1 (BitVec.eq_of_toNat_eq hequal)

theorem crc32Update_injective (bytes : List UInt8) :
    Function.Injective fun crc ↦ crc32Update crc bytes := by
  induction bytes with
  | nil => exact Function.injective_id
  | cons byte rest ih =>
    intro crc other hsame
    exact (BitVec.xor_left_inj _).1 (crc32Bit_injective.iterate 8 (ih hsame))

/-! ### Records -/

variable {sector changed : Sector}

/-- A part of a sector that the checksum has run over shows a burst. -/
theorem byteAt_eq_of_crc32Update {crc : BitVec 32} {offset length start : ℕ}
    (hstart : offset ≤ start)
    (houtside : ∀ position, offset ≤ position → position < offset + length →
      position < start ∨ start + 4 ≤ position → sector.byteAt position = changed.byteAt position)
    (hsame : crc32Update crc (sector.slice offset length) =
      crc32Update crc (changed.slice offset length)) :
    ∀ position, offset ≤ position → position < offset + length →
      sector.byteAt position = changed.byteAt position := by
  obtain ⟨before, hbefore⟩ : ∃ before, before = min (start - offset) length := ⟨_, rfl⟩
  obtain ⟨window, hwindow⟩ : ∃ window, window = min 4 (length - before) := ⟨_, rfl⟩
  obtain ⟨behind, rfl⟩ : ∃ behind, length = before + (window + behind) :=
    ⟨length - before - window, by omega⟩
  have hfirst : sector.slice offset before = changed.slice offset before :=
    Buffer.slice_congr fun position hle hlt ↦ houtside position hle (by omega) (by omega)
  have hlast : sector.slice (offset + before + window) behind =
      changed.slice (offset + before + window) behind :=
    Buffer.slice_congr fun position hle hlt ↦ houtside position (by omega) (by omega) (by omega)
  simp only [Buffer.slice_append, crc32Update, List.foldl_append, hfirst, hlast] at hsame
  have hread := (crc32Update_close (by simp) (by simp; omega)
    (crc32Update_injective _ hsame)).2 rfl
  intro position hle hlt
  by_cases hinside : position < start ∨ start + 4 ≤ position
  · exact houtside position hle hlt hinside
  · have hbytes := List.map_inj_left.1 hread (position - start) (by rw [List.mem_range]; omega)
    rw [show offset + before + (position - start) = position by omega] at hbytes
    exact hbytes

/-- What two accepted records agree on once the checksummed bytes are the same. -/
theorem Accepts.eq_of_covered (haccepts : Accepts sector true) (hchanged : Accepts changed true)
    (hcovered : ∀ position, position < 16 ∨ 20 ≤ position ∧ position < 308 →
      sector.byteAt position = changed.byteAt position) : sector = changed := by
  have hcrc : sector.readU32 16 = changed.readU32 16 := by
    rw [haccepts.crc, hchanged.crc, recordCrc_congr hcovered]
  have hmarker : sector.readU32 508 = changed.readU32 508 :=
    haccepts.marker.trans hchanged.marker.symm
  refine Buffer.ext_byteAt fun position hposition ↦ ?_
  by_cases hfield : 16 ≤ position ∧ position < 20
  · exact Buffer.byteAt_eq_of_readU32_eq hcrc hfield.1 hfield.2
  by_cases hpadding : 308 ≤ position ∧ position < 508
  · rw [haccepts.reserved position hpadding.1 hpadding.2,
      hchanged.reserved position hpadding.1 hpadding.2]
  by_cases hend : 508 ≤ position
  · exact Buffer.byteAt_eq_of_readU32_eq hmarker hend hposition
  · exact hcovered position (by omega)

/-- Two sectors differ at most in a window of four bytes that does not touch the checksum. -/
def DifferInWindow (sector changed : Sector) : Prop :=
  ∃ start length, length ≤ 4 ∧ (start + length ≤ 16 ∨ 20 ≤ start) ∧
    ∀ position < 512, sector.byteAt position ≠ changed.byteAt position →
      start ≤ position ∧ position < start + length

/-- Two sectors differ at most in one byte. -/
def DifferInByte (sector changed : Sector) : Prop :=
  ∃ place, ∀ position < 512, sector.byteAt position ≠ changed.byteAt position → position = place

theorem DifferInWindow.eq_of_accepts (hwindow : DifferInWindow sector changed)
    (haccepts : Accepts sector true) (hchanged : Accepts changed true) : sector = changed := by
  obtain ⟨start, length, hlength, hfree, hdiffer⟩ := hwindow
  have houtside : ∀ position < 512, position < start ∨ start + length ≤ position →
      sector.byteAt position = changed.byteAt position := by
    intro position hposition hout
    by_contra hother
    have := hdiffer position hposition hother
    omega
  have hcrc : sector.readU32 16 = changed.readU32 16 :=
    Buffer.readU32_congr fun position hle hlt ↦ houtside position (by omega) (by omega)
  rw [haccepts.crc, hchanged.crc, recordCrc, recordCrc, BitVec.toNat_inj, BitVec.not_inj] at hcrc
  refine haccepts.eq_of_covered hchanged ?_
  rcases hfree with hheader | hpayload
  · have hsame : sector.slice journalHeaderSize journalPayloadSize =
        changed.slice journalHeaderSize journalPayloadSize :=
      Buffer.slice_congr fun position hle hlt ↦ by
        change 20 ≤ position at hle
        change position < 20 + 288 at hlt
        exact houtside position (by omega) (by omega)
    rw [hsame] at hcrc
    have hbytes := byteAt_eq_of_crc32Update (Nat.zero_le start)
      (fun position _ hlt hout ↦ houtside position (by omega) (by omega))
      (crc32Update_injective _ hcrc)
    rintro position (hlow | ⟨hle, hlt⟩)
    · exact hbytes position (Nat.zero_le _) (by omega)
    · exact houtside position (by omega) (by omega)
  · have hsame : sector.slice 0 16 = changed.slice 0 16 :=
      Buffer.slice_congr fun position hle hlt ↦ houtside position (by omega) (by omega)
    rw [hsame] at hcrc
    have hbytes := byteAt_eq_of_crc32Update hpayload
      (fun position _ hlt hout ↦ by
        change position < 20 + 288 at hlt
        exact houtside position (by omega) (by omega)) hcrc
    rintro position (hlow | ⟨hle, hlt⟩)
    · exact houtside position (by omega) (by omega)
    · exact hbytes position hle hlt

theorem DifferInByte.eq_of_accepts (hbyte : DifferInByte sector changed)
    (haccepts : Accepts sector true) (hchanged : Accepts changed true) : sector = changed := by
  obtain ⟨place, hplace⟩ := hbyte
  by_cases hfield : 16 ≤ place ∧ place < 20
  · refine haccepts.eq_of_covered hchanged fun position hcovered ↦ ?_
    by_contra hother
    have := hplace position (by omega) hother
    omega
  · refine DifferInWindow.eq_of_accepts ⟨place, 1, by decide, by omega, ?_⟩ haccepts hchanged
    intro position hposition hother
    have := hplace position hposition hother
    omega

/-- A committed record that is damaged in a short window or in one byte is not decoded. -/
theorem burst_is_detected {entry : JournalEntry} (hdecode : journalDecode sector = some entry)
    (hdiffers : ∃ position < 512, sector.byteAt position ≠ changed.byteAt position)
    (hdamage : DifferInWindow sector changed ∨ DifferInByte sector changed) :
    journalDecode changed = none := by
  obtain ⟨position, -, hother⟩ := hdiffers
  refine Option.eq_none_iff_forall_ne_some.2 fun other hchanged ↦ hother ?_
  have haccepts := ((journalDecodeInternal_eq_some_iff _ _ _).1 hdecode).1
  have hdamaged := ((journalDecodeInternal_eq_some_iff _ _ _).1 hchanged).1
  rcases hdamage with hwindow | hbyte
  · rw [hwindow.eq_of_accepts haccepts hdamaged]
  · rw [hbyte.eq_of_accepts haccepts hdamaged]

/-- The first letter of the name of a note is changed. -/
theorem burst_is_detected_note :
    ∃ sector changed : Sector, journalDecode sector = some noteRequest.entry ∧
      sector.byteAt 20 ≠ changed.byteAt 20 ∧ journalDecode changed = none := by
  obtain ⟨sector, hsector⟩ :
    ∃ sector, sector = commitSector noteRequest.preparedSector := ⟨_, rfl⟩
  have hdecode : journalDecode sector = some noteRequest.entry :=
    hsector ▸ journalDecode_commitSector encodable_noteRequest
  have hbyte : sector.byteAt 20 ≠ (sector.setByte 20 (sector.byteAt 20 + 1)).byteAt 20 := by
    rw [Buffer.byteAt_setByte, if_pos (by decide)]
    intro hsame
    have hnext := (congrArg UInt8.toNat hsame).trans (UInt8.toNat_add _ 1)
    rw [UInt8.toNat_one] at hnext
    omega
  refine ⟨sector, _, hdecode, hbyte, burst_is_detected hdecode ⟨20, by decide, hbyte⟩
    (.inl ⟨20, 1, by decide, .inr le_rfl, fun position _ hother ↦ ?_⟩)⟩
  rw [Buffer.byteAt_setByte] at hother
  have hplace : 20 = position := by
    by_contra hne
    exact hother (if_neg fun hsame ↦ hne hsame.1).symm
  omega

end EfesOS.Fs.Journal
