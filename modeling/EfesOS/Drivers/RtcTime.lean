import Mathlib.Data.Nat.Bitwise

/-!
# Decoding the clock

`drivers/rtc_time.c`: the bytes of the CMOS clock, in BCD or in binary and with twelve or
twenty-four hours, as a date and a time. With a century byte, a decoded time tells every byte it
came from (`decodeBcd_eq_some`, `hourOfTwelve_inj`) as long as the year is below a hundred. In
binary its byte may exceed 99 and runs into the century: `rtc_decoding_injective_iff`.
-/

set_option autoImplicit false

namespace EfesOS.Drivers.Rtc

/-- `struct rtc_raw_snapshot`. -/
@[ext]
structure RtcRawSnapshot where
  second : UInt8
  minute : UInt8
  hour : UInt8
  day : UInt8
  month : UInt8
  year : UInt8
  century : UInt8
  registerB : UInt8
  deriving DecidableEq

/-- `struct rtc_time`. All values but the year fit into its bytes: they come from a byte, and an
hour is moved by twelve only from below thirteen. -/
structure RtcTime where
  year : ℕ
  month : ℕ
  day : ℕ
  hour : ℕ
  minute : ℕ
  second : ℕ
  deriving DecidableEq

def decodeBcd (raw : UInt8) : Option ℕ :=
  let low := raw.toNat % 16
  let high := raw.toNat / 16
  if low > 9 ∨ high > 9 then none else some (high * 10 + low)

def decodeValue (raw : UInt8) (binary : Bool) : Option ℕ :=
  if binary then some raw.toNat else decodeBcd raw

def leapYear (year : ℕ) : Bool := year % 4 = 0 ∧ year % 100 ≠ 0 ∨ year % 400 = 0

def monthDays (year month : ℕ) : ℕ :=
  if month = 0 ∨ month > 12 then 0
  else if month = 2 ∧ leapYear year then 29
  else [31, 28, 31, 30, 31, 30, 31, 31, 30, 31, 30, 31].getD (month - 1) 0

def rtcTimeIsValid (time : RtcTime) : Bool :=
  ¬(time.year < 1900 ∨ time.year > 9999 ∨ time.month = 0 ∨ time.month > 12 ∨ time.hour > 23 ∨
    time.minute > 59 ∨ time.second > 59) ∧
    time.day ≠ 0 ∧ time.day ≤ monthDays time.year time.month

/-- An hour of a twelve-hour clock. -/
def hourOfTwelve (hour : ℕ) (afternoon : Bool) : Option ℕ :=
  if hour = 0 ∨ hour > 12 then none
  else some ((if hour = 12 then 0 else hour) + if afternoon then 12 else 0)

/-- The year, with the century byte if it holds a century and with the pivot of 1980 otherwise. -/
def fullYear (year : ℕ) : Option ℕ → ℕ
  | none => year + if year ≥ 80 then 1900 else 2000
  | some century => year + century * 100

/-- What the century byte says, if it says something. -/
def centuryOf (raw : RtcRawSnapshot) (binary : Bool) : Option ℕ :=
  if raw.century = 0 then none
  else (decodeValue raw.century binary).filter fun century ↦ 19 ≤ century ∧ century ≤ 99

def rtcDecodeSnapshot (raw : RtcRawSnapshot) : Option RtcTime := do
  let binary : Bool := raw.registerB &&& 0x04 ≠ 0
  let hour24 : Bool := raw.registerB &&& 0x02 ≠ 0
  let afternoon : Bool := raw.hour &&& 0x80 ≠ 0
  let second ← decodeValue raw.second binary
  let minute ← decodeValue raw.minute binary
  let hour ← decodeValue (if hour24 then raw.hour else raw.hour &&& 0x7F) binary
  let day ← decodeValue raw.day binary
  let month ← decodeValue raw.month binary
  let year ← decodeValue raw.year binary
  let hour ← (if hour24 then some hour else hourOfTwelve hour afternoon)
  let time : RtcTime := ⟨fullYear year (centuryOf raw binary), month, day, hour, minute, second⟩
  if rtcTimeIsValid time then some time else none

/-! ### Bytes from values -/

variable {first second : UInt8} {value : ℕ} {binary : Bool}

theorem decodeBcd_eq_some (h : decodeBcd first = some value) :
    first.toNat = value / 10 * 16 + value % 10 ∧ value < 100 := by
  simp only [decodeBcd, Option.ite_none_left_eq_some, Option.some.injEq, not_or, not_lt] at h
  omega

theorem decodeValue_inj (hfirst : decodeValue first binary = some value)
    (hsecond : decodeValue second binary = some value) : first = second := by
  rw [← UInt8.toNat_inj]
  cases binary with
  | true => exact (Option.some.inj hfirst).trans (Option.some.inj hsecond).symm
  | false => exact (decodeBcd_eq_some hfirst).1.trans (decodeBcd_eq_some hsecond).1.symm

theorem hourOfTwelve_inj {hour other : ℕ} {afternoon later : Bool}
    (hfirst : hourOfTwelve hour afternoon = some value)
    (hsecond : hourOfTwelve other later = some value) : hour = other ∧ afternoon = later := by
  simp only [hourOfTwelve, Option.ite_none_left_eq_some, Option.some.injEq] at hfirst hsecond
  cases afternoon <;> cases later <;> simp at hfirst hsecond ⊢ <;> split_ifs at * <;> omega

/-- The two parts of an hour byte. -/
theorem hour_eq (hlow : first &&& 0x7F = second &&& 0x7F)
    (hhigh : decide (first &&& 0x80 ≠ 0) = decide (second &&& 0x80 ≠ 0)) : first = second := by
  have hmasks : ∀ byte < 256, byte &&& 127 = byte % 128 ∧ (byte &&& 128 ≠ 0 ↔ 128 ≤ byte) := by
    decide +kernel
  have hparts : ∀ byte : UInt8, (byte &&& 0x7F).toNat = byte.toNat % 128 ∧
      (byte &&& 0x80 ≠ 0 ↔ 128 ≤ byte.toNat) := by
    intro byte
    rw [ne_eq, ← UInt8.toNat_inj, UInt8.toNat_and, UInt8.toNat_and]
    exact hmasks byte.toNat byte.toNat_lt
  have hnat := congrArg UInt8.toNat hlow
  rw [(hparts first).1, (hparts second).1] at hnat
  rw [decide_eq_decide, (hparts first).2, (hparts second).2] at hhigh
  have hfirst := first.toNat_lt
  have hsecond := second.toNat_lt
  rw [← UInt8.toNat_inj]
  omega

/-! ### Snapshots from times -/

/-- The century byte says which century it is. -/
def HasCentury (raw : RtcRawSnapshot) (century : ℕ) : Prop :=
  decodeValue raw.century (raw.registerB &&& 0x04 ≠ 0) = some century ∧
    19 ≤ century ∧ century ≤ 99

/-- The byte of the year is below a hundred; in BCD it always is. -/
def HasShortYear (raw : RtcRawSnapshot) : Prop :=
  raw.registerB &&& 0x04 = 0 ∨ raw.year.toNat ≤ 99

/-- Two snapshots are told apart by what they decode to, and their years lie in their centuries. -/
structure DecodesFaithfully (first second : RtcRawSnapshot) : Prop where
  injective : rtcDecodeSnapshot first = rtcDecodeSnapshot second → first = second
  inCentury : ∀ raw ∈ [first, second], ∀ century time, HasCentury raw century →
    rtcDecodeSnapshot raw = some time → time.year / 100 = century

/-- What an accepted snapshot says about its bytes. -/
structure Read (raw : RtcRawSnapshot) (binary hour24 : Bool) (time : RtcTime) (hour year : ℕ) :
    Prop where
  second : decodeValue raw.second binary = some time.second
  minute : decodeValue raw.minute binary = some time.minute
  hourByte : decodeValue (if hour24 then raw.hour else raw.hour &&& 0x7F) binary = some hour
  hour : (if hour24 then some hour else hourOfTwelve hour (raw.hour &&& 0x80 ≠ 0)) = some time.hour
  day : decodeValue raw.day binary = some time.day
  month : decodeValue raw.month binary = some time.month
  yearByte : decodeValue raw.year binary = some year
  year : time.year = fullYear year (centuryOf raw binary)

theorem read_of_decode {raw : RtcRawSnapshot} {time : RtcTime}
    (h : rtcDecodeSnapshot raw = some time) :
    ∃ hour year, Read raw (raw.registerB &&& 0x04 ≠ 0) (raw.registerB &&& 0x02 ≠ 0) time hour
      year := by
  simp only [rtcDecodeSnapshot, Option.bind_eq_bind, Option.bind_eq_some_iff,
    Option.ite_none_right_eq_some, Option.some.injEq] at h
  obtain ⟨_, hsecond, _, hminute, hour, hhour, _, hday, _, hmonth, year, hyear, _, htwelve, -,
    rfl⟩ := h
  exact ⟨hour, year, hsecond, hminute, hhour, htwelve, hday, hmonth, hyear, rfl⟩

theorem fullYear_of_century {raw : RtcRawSnapshot} {century : ℕ} (h : HasCentury raw century)
    (year : ℕ) :
    fullYear year (centuryOf raw (raw.registerB &&& 0x04 ≠ 0)) = year + century * 100 := by
  have hzero : ∀ binary, decodeValue 0 binary = some 0 := by decide
  have hne : raw.century ≠ 0 := by
    intro heq
    have hcentury := h.1
    rw [heq, hzero] at hcentury
    cases hcentury
    exact absurd h.2.1 (by decide)
  rw [centuryOf, if_neg hne, h.1]
  simp [Option.filter, fullYear, h.2]

theorem Read.hour_eq {first second : RtcRawSnapshot} {hour24 : Bool} {time : RtcTime}
    {hour other year later : ℕ} (hfirst : Read first binary hour24 time hour year)
    (hsecond : Read second binary hour24 time other later) : first.hour = second.hour := by
  have hbyte := hfirst.hourByte
  have hbyte' := hsecond.hourByte
  have hhour := hfirst.hour
  have hhour' := hsecond.hour
  cases hour24 with
  | true =>
    cases hhour
    cases hhour'
    exact decodeValue_inj hbyte hbyte'
  | false =>
    obtain ⟨rfl, hafternoon⟩ := hourOfTwelve_inj hhour hhour'
    exact Rtc.hour_eq (decodeValue_inj hbyte hbyte') hafternoon

/-- The century and the year can be told apart if the year is below a hundred. -/
theorem year_div_eq_iff {raw : RtcRawSnapshot} {century hour year : ℕ} {hour24 : Bool}
    {time : RtcTime} (hcentury : HasCentury raw century)
    (hread : Read raw (raw.registerB &&& 0x04 ≠ 0) hour24 time hour year) :
    (time.year / 100 = century ↔ HasShortYear raw) ∧
      (HasShortYear raw → year = time.year % 100) := by
  have hyear := hread.year
  have hbyte := hread.yearByte
  rw [fullYear_of_century hcentury] at hyear
  have hshort : HasShortYear raw ↔ year < 100 := by
    by_cases hbcd : raw.registerB &&& 0x04 = 0
    · simp only [hbcd, ne_eq, not_true_eq_false, decide_false] at hbyte
      exact iff_of_true (.inl hbcd) (decodeBcd_eq_some hbyte).2
    · simp only [hbcd, ne_eq, not_false_eq_true, decide_true] at hbyte
      rw [HasShortYear, or_iff_right hbcd, ← Option.some.inj hbyte]
      exact Nat.lt_succ_iff.symm
  rw [hshort]
  omega

/-- Two decoded times tell their snapshots, and the years lie in the centuries, exactly if both
years are below a hundred. -/
theorem rtc_decoding_injective_iff {first second : RtcRawSnapshot}
    {firstCentury secondCentury : ℕ} {time later : RtcTime}
    (hregister : first.registerB = second.registerB) (hcentury : HasCentury first firstCentury)
    (hother : HasCentury second secondCentury) (hfirst : rtcDecodeSnapshot first = some time)
    (hsecond : rtcDecodeSnapshot second = some later) :
    DecodesFaithfully first second ↔ HasShortYear first ∧ HasShortYear second := by
  obtain ⟨hour, year, hread⟩ := read_of_decode hfirst
  obtain ⟨otherHour, otherYear, hreadOther⟩ := read_of_decode hsecond
  obtain ⟨hiff, hyear⟩ := year_div_eq_iff hcentury hread
  obtain ⟨hiffOther, hyearOther⟩ := year_div_eq_iff hother hreadOther
  constructor
  · intro hfaithful
    exact ⟨hiff.mp (hfaithful.inCentury first (by simp) _ _ hcentury hfirst),
      hiffOther.mp (hfaithful.inCentury second (by simp) _ _ hother hsecond)⟩
  · rintro ⟨hshort, hshortOther⟩
    refine ⟨fun hsame ↦ ?_, fun raw hraw century decoded hhas hdecoded ↦ ?_⟩
    · obtain rfl : time = later := Option.some.inj (hfirst.symm.trans (hsame.trans hsecond))
      obtain rfl := hyear hshort
      obtain rfl := hyearOther hshortOther
      obtain rfl := hiff.mpr hshort
      obtain rfl := hiffOther.mpr hshortOther
      rw [HasCentury, ← hregister] at hother
      rw [← hregister] at hreadOther
      exact RtcRawSnapshot.ext (decodeValue_inj hread.second hreadOther.second)
        (decodeValue_inj hread.minute hreadOther.minute) (hread.hour_eq hreadOther)
        (decodeValue_inj hread.day hreadOther.day) (decodeValue_inj hread.month hreadOther.month)
        (decodeValue_inj hread.yearByte hreadOther.yearByte)
        (decodeValue_inj hcentury.1 hother.1) hregister
    · obtain ⟨_, _, hreadRaw⟩ := read_of_decode hdecoded
      refine (year_div_eq_iff hhas hreadRaw).1.mpr ?_
      simp only [List.mem_cons, List.not_mem_nil, or_false] at hraw
      exact hraw.elim (· ▸ hshort) (· ▸ hshortOther)

/-- Two years of a clock in binary, the last of one century and the first of the next. -/
theorem rtc_decoding_injective_binary :
    DecodesFaithfully ⟨0, 0, 0, 1, 1, 99, 20, 0x06⟩ ⟨0, 0, 0, 1, 1, 0, 21, 0x06⟩ := by
  have hlast : rtcDecodeSnapshot ⟨0, 0, 0, 1, 1, 99, 20, 0x06⟩ =
      some ⟨2099, 1, 1, 0, 0, 0⟩ := by decide
  have hfirst : rtcDecodeSnapshot ⟨0, 0, 0, 1, 1, 0, 21, 0x06⟩ =
      some ⟨2100, 1, 1, 0, 0, 0⟩ := by decide
  exact (rtc_decoding_injective_iff (by rfl) ⟨rfl, by decide, by decide⟩ ⟨rfl, by decide, by decide⟩
    hlast hfirst).mpr ⟨.inr (by decide), .inr (by decide)⟩

/-- Two clocks in binary that show the same date with different bytes. -/
theorem binary_year_exceeds_century :
    decodeValue 20 true = some 20 ∧ decodeValue 21 true = some 21 ∧
      rtcDecodeSnapshot ⟨0, 0, 0, 1, 1, 120, 20, 0x06⟩ = some ⟨2120, 1, 1, 0, 0, 0⟩ ∧
      rtcDecodeSnapshot ⟨0, 0, 0, 1, 1, 20, 21, 0x06⟩ = some ⟨2120, 1, 1, 0, 0, 0⟩ := by
  decide

end EfesOS.Drivers.Rtc
