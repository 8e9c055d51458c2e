import EfesOS.Foundation.Checked

/-!
# The high precision event timer

`drivers/hpet_time.c` converts ticks of the timer to nanoseconds without a 128-bit product: it
divides bit by bit and multiplies by doubling. The arithmetic here is checked, so a sum that does
not fit into its type stops the computation. `ticks_to_nanoseconds_exact` says that none does and
that the result is the exact quotient, cut off at the largest 64-bit number.

`drivers/hpet.c` reads the counter. Every read of a register happens at an instant, and the counter
is any function of the instants that does not decrease, so it may move between any two reads.
`hpet_time_never_decreases` says what the calls after `hpet_init` return.
-/

set_option autoImplicit false

namespace EfesOS.Drivers.Hpet

open EfesOS.Foundation EfesOS.Foundation.Checked

def femtosecondsPerNanosecond : ℕ := 10 ^ 6

def hpetMaxPeriodFemtoseconds : ℕ := 10 ^ 8

def hpetU64Max : ℕ := 2 ^ 64 - 1

/-- A value of a type with so many bits. -/
def fits (width value : ℕ) : Checked ℕ := if value < 2 ^ width then .ok value else .error .wraps

/-- The loop of `divide_u64_u32`, with the number of bits still to come: the quotient and the rest.
The bit that is set in the quotient is a new one. -/
def divideBits (value divisor : ℕ) : ℕ → ℕ → ℕ → Checked (ℕ × ℕ)
  | 0, quotient, rest => pure (quotient, rest)
  | bit + 1, quotient, rest => do
    let rest ← fits 32 (2 * rest + value / 2 ^ bit % 2)
    if divisor ≤ rest then
      divideBits value divisor bit (← fits 64 (quotient + 2 ^ bit)) (rest - divisor)
    else divideBits value divisor bit quotient rest

def divideU64U32 (value divisor : ℕ) : Checked (ℕ × ℕ) := divideBits value divisor 64 0 0

/-- A sum that is made under a condition. -/
def addIf (condition : Prop) [Decidable condition] (value other : ℕ) : Checked ℕ :=
  if condition then fits 64 (value + other) else pure value

/-- The loop of `saturating_multiply_u32`, from a result on. -/
def saturatingMultiply (result value factor : ℕ) : Checked ℕ :=
  if factor = 0 then pure result
  else if factor % 2 = 1 ∧ hpetU64Max - value < result then pure hpetU64Max
  else do
    let result ← addIf (factor % 2 = 1) result value
    if factor / 2 ≠ 0 ∧ hpetU64Max - value < value then pure hpetU64Max
    else do
      let value ← addIf (factor / 2 ≠ 0) value value
      saturatingMultiply result value (factor / 2)
termination_by factor
decreasing_by omega

def saturatingMultiplyU32 (value factor : ℕ) : Checked ℕ := saturatingMultiply 0 value factor

def hpetTicksToNanoseconds (ticks : UInt64) (periodFemtoseconds : UInt32) : Checked ℕ :=
  if periodFemtoseconds.toNat = 0 ∨ hpetMaxPeriodFemtoseconds < periodFemtoseconds.toNat then
    pure hpetU64Max
  else do
    let (wholeTicks, remainder) ← divideU64U32 ticks.toNat femtosecondsPerNanosecond
    let wholeNanoseconds ← saturatingMultiplyU32 wholeTicks periodFemtoseconds.toNat
    let fractionalFemtoseconds ← saturatingMultiplyU32 remainder periodFemtoseconds.toNat
    let (fractionalNanoseconds, _) ← divideU64U32 fractionalFemtoseconds femtosecondsPerNanosecond
    if hpetU64Max - fractionalNanoseconds < wholeNanoseconds then pure hpetU64Max
    else fits 64 (wholeNanoseconds + fractionalNanoseconds)

/-! ### The conversion -/

theorem fits_eq {width value : ℕ} (hvalue : value < 2 ^ width) : fits width value = .ok value :=
  if_pos hvalue

/-- The quotient and the rest of a number with one more bit. -/
theorem divMod_double {value divisor : ℕ} (hdivisor : 0 < divisor) :
    (divisor ≤ 2 * (value / 2 % divisor) + value % 2 →
      value / divisor = 2 * (value / 2 / divisor) + 1 ∧
        value % divisor = 2 * (value / 2 % divisor) + value % 2 - divisor) ∧
    (¬divisor ≤ 2 * (value / 2 % divisor) + value % 2 →
      value / divisor = 2 * (value / 2 / divisor) ∧
        value % divisor = 2 * (value / 2 % divisor) + value % 2) := by
  have hhalf := Nat.div_add_mod (value / 2) divisor
  have hrest := Nat.mod_lt (value / 2) hdivisor
  refine ⟨fun hle ↦ (Nat.div_mod_unique hdivisor).2 ⟨?_, by omega⟩, fun hlt ↦
    (Nat.div_mod_unique hdivisor).2 ⟨?_, by omega⟩⟩
  · rw [Nat.mul_add, Nat.mul_left_comm]
    omega
  · rw [Nat.mul_left_comm]
    omega

/-- The loop continues the division of the bits that were read. -/
theorem divideBits_eq {value divisor bits : ℕ} (hdivisor : 0 < divisor) (hsmall : divisor ≤ 2 ^ 31)
    (hvalue : value < 2 ^ 64) (hbits : bits ≤ 64) :
    divideBits value divisor bits (2 ^ bits * (value / 2 ^ bits / divisor))
      (value / 2 ^ bits % divisor) = .ok (value / divisor, value % divisor) := by
  induction bits with
  | zero => simp [divideBits, pure, Except.pure]
  | succ bit ih =>
    have hhalf : value / 2 ^ (bit + 1) = value / 2 ^ bit / 2 := by
      rw [pow_succ, Nat.div_div_eq_div_mul]
    have hrest := Nat.mod_lt (value / 2 ^ bit / 2) hdivisor
    obtain ⟨hover, hunder⟩ := @divMod_double (value / 2 ^ bit) _ hdivisor
    rw [divideBits, hhalf, fits_eq (by omega), ok_bind]
    split_ifs with hle
    · obtain ⟨hquotient, hremainder⟩ := hover hle
      have hset : 2 ^ (bit + 1) * (value / 2 ^ bit / 2 / divisor) + 2 ^ bit =
          2 ^ bit * (value / 2 ^ bit / divisor) := by
        rw [hquotient]
        ring
      have hbound : 2 ^ bit * (value / 2 ^ bit / divisor) ≤ value :=
        (Nat.mul_le_mul_left _ (Nat.div_le_self _ _)).trans (Nat.mul_div_le _ _)
      rw [hset, fits_eq (by omega), ok_bind, ← hremainder]
      exact ih (by omega)
    · obtain ⟨hquotient, hremainder⟩ := hunder hle
      rw [← hremainder, pow_succ, Nat.mul_assoc, ← hquotient]
      exact ih (by omega)

theorem divideU64U32_eq {value divisor : ℕ} (hdivisor : 0 < divisor) (hsmall : divisor ≤ 2 ^ 31)
    (hvalue : value < 2 ^ 64) :
    divideU64U32 value divisor = .ok (value / divisor, value % divisor) := by
  have hloop := divideBits_eq hdivisor hsmall hvalue le_rfl
  rwa [Nat.div_eq_of_lt hvalue, Nat.zero_div, Nat.zero_mod, Nat.mul_zero] at hloop

theorem addIf_eq {condition : Prop} [Decidable condition] {value other : ℕ}
    (hfits : condition → value + other < 2 ^ 64) :
    addIf condition value other = .ok (if condition then value + other else value) := by
  unfold addIf
  split_ifs with hcondition
  · exact fits_eq (hfits hcondition)
  · rfl

theorem saturatingMultiply_eq {result value factor : ℕ} (hresult : result ≤ hpetU64Max)
    (hvalue : value ≤ hpetU64Max) :
    saturatingMultiply result value factor = .ok (min (result + value * factor) hpetU64Max) := by
  induction factor using Nat.strong_induction_on generalizing result value with
  | _ factor ih =>
    have hmax : hpetU64Max < 2 ^ 64 := by decide
    rw [saturatingMultiply]
    by_cases hzero : factor = 0
    · rw [if_pos hzero, hzero, Nat.mul_zero, Nat.add_zero, Nat.min_eq_left hresult]
      rfl
    rw [if_neg hzero]
    by_cases hfull : factor % 2 = 1 ∧ hpetU64Max - value < result
    · have hone : value ≤ value * factor := Nat.le_mul_of_pos_right _ (Nat.pos_of_ne_zero hzero)
      rw [if_pos hfull, Nat.min_eq_right (by omega)]
      rfl
    have hproduct : value * factor = 2 * value * (factor / 2) + value * (factor % 2) := by
      conv_lhs => rw [← Nat.div_add_mod factor 2]
      ring
    rw [if_neg hfull, addIf_eq fun hodd ↦ by omega, ok_bind]
    by_cases hdouble : factor / 2 ≠ 0 ∧ hpetU64Max - value < value
    · have hpair : 2 * value ≤ 2 * value * (factor / 2) :=
        Nat.le_mul_of_pos_right _ (Nat.pos_of_ne_zero hdouble.1)
      rw [if_pos hdouble, Nat.min_eq_right (by omega)]
      rfl
    rw [if_neg hdouble, addIf_eq fun heven ↦ by omega, ok_bind,
      ih _ (by omega) (by split_ifs <;> omega) (by split_ifs <;> omega)]
    have hnext : (if factor / 2 ≠ 0 then value + value else value) * (factor / 2) =
        2 * value * (factor / 2) := by
      split_ifs with hhalf
      · rw [Nat.two_mul]
      · rw [not_not.1 hhalf, Nat.mul_zero, Nat.mul_zero]
    rw [hnext, hproduct]
    rcases Nat.mod_two_eq_zero_or_one factor with hbit | hbit
    · rw [if_neg (by omega), hbit, Nat.mul_zero, Nat.add_zero]
    · rw [if_pos hbit, hbit, Nat.mul_one, Nat.add_assoc, Nat.add_comm value]

theorem hpetTicksToNanoseconds_eq (ticks : UInt64) {period : UInt32} (hpositive : 1 ≤ period.toNat)
    (hperiod : period.toNat ≤ hpetMaxPeriodFemtoseconds) :
    hpetTicksToNanoseconds ticks period =
      .ok (min (ticks.toNat * period.toNat / 10 ^ 6) (2 ^ 64 - 1)) := by
  have hmax : hpetU64Max = 2 ^ 64 - 1 := rfl
  rw [hpetMaxPeriodFemtoseconds] at hperiod
  have hticks : ticks.toNat < 2 ^ 64 := ticks.toNat_lt
  have hremainder : ticks.toNat % 10 ^ 6 < 10 ^ 6 := Nat.mod_lt _ (by norm_num)
  have hfraction : ticks.toNat % 10 ^ 6 * period.toNat ≤ 10 ^ 6 * 10 ^ 8 :=
    Nat.mul_le_mul hremainder.le hperiod
  have hwhole : ticks.toNat * period.toNat / 10 ^ 6 = ticks.toNat / 10 ^ 6 * period.toNat +
      ticks.toNat % 10 ^ 6 * period.toNat / 10 ^ 6 := by
    conv_lhs => rw [← Nat.div_add_mod ticks.toNat (10 ^ 6), Nat.add_mul, Nat.mul_assoc]
    rw [Nat.mul_add_div (by norm_num)]
  unfold hpetTicksToNanoseconds saturatingMultiplyU32 femtosecondsPerNanosecond
  rw [if_neg (by rw [hpetMaxPeriodFemtoseconds]; omega),
    divideU64U32_eq (by norm_num) (by norm_num) hticks, ok_bind]
  dsimp only
  rw [saturatingMultiply_eq (Nat.zero_le _) (by omega), ok_bind,
    saturatingMultiply_eq (Nat.zero_le _) (by omega), ok_bind, Nat.zero_add, Nat.zero_add,
    Nat.min_eq_left (by omega), divideU64U32_eq (by norm_num) (by norm_num) (by omega), ok_bind]
  split_ifs with hover
  · rw [Nat.min_eq_right (by omega), hmax]
    rfl
  · rw [fits_eq (by omega)]
    congr 1
    omega

/-- The result is the quotient cut off at the largest 64-bit number, and nothing on the way
overflows, for every tick count. So the time grows with the ticks. -/
theorem ticks_to_nanoseconds_exact (period : UInt32) (hpositive : 1 ≤ period.toNat)
    (hperiod : period.toNat ≤ hpetMaxPeriodFemtoseconds) :
    (∀ ticks : UInt64, hpetTicksToNanoseconds ticks period =
      .ok (min (ticks.toNat * period.toNat / 10 ^ 6) (2 ^ 64 - 1))) ∧
    ∀ first second : UInt64, first ≤ second → ∃ earlier later,
      hpetTicksToNanoseconds first period = .ok earlier ∧
      hpetTicksToNanoseconds second period = .ok later ∧ earlier ≤ later := by
  have hexact := fun ticks ↦ hpetTicksToNanoseconds_eq ticks hpositive hperiod
  refine ⟨hexact, fun first second hle ↦ ⟨_, _, hexact first, hexact second, ?_⟩⟩
  exact min_le_min_right _ (Nat.div_le_div_right (Nat.mul_le_mul_right _ hle))

/-- A timer of 100 MHz. -/
theorem ticks_to_nanoseconds_exact_ten :
    1 ≤ (10000000 : UInt32).toNat ∧
      hpetTicksToNanoseconds 7 10000000 = .ok (min (7 * 10000000 / 10 ^ 6) (2 ^ 64 - 1)) :=
  ⟨by decide, (ticks_to_nanoseconds_exact 10000000 (by decide) (by decide)).1 7⟩

/-! ### The counter -/

abbrev pageSize : UInt32 := 4096

abbrev hpetMapVirtual : UInt32 := 0xCEF00000

/-- The true counter at each instant, from its reset on, and what else the driver meets: the answers
of the paging code, and what a read of another register returns. What a device makes of a store to a
register is what later reads return. -/
structure Platform where
  count : ℕ → ℕ
  register : ℕ → UInt32 → UInt32
  inKernelDirectory : Bool
  pagingIsMapped : UInt32 → Bool
  pagingMapPage : UInt32 → UInt32 → Bool

structure HpetInfo where
  physicalAddress : UInt32
  eventTimerBlockId : UInt32

/-- The static variables of `hpet.c`. -/
structure Timer where
  initialized : Bool
  available : Bool
  period : UInt32
  counterHigh : ℕ
  counterLastLow : ℕ
  has64bitCounter : Bool
  deriving DecidableEq

section Driver

variable (platform : Platform)

/-- The low half of the main counter. -/
def readLow (now : ℕ) : ℕ := platform.count now % 2 ^ 32

/-- The high half of the main counter. -/
def readHigh (now : ℕ) : ℕ := platform.count now / 2 ^ 32 % 2 ^ 32

/-- The loop of `read_counter_64bit`. -/
def readCounter64bit : ℕ → ℕ → Option (ℕ × ℕ)
  | 0, _ => none
  | steps + 1, now =>
    if readHigh platform now ≠ readHigh platform (now + 2) then readCounter64bit steps (now + 3)
    else some (readHigh platform (now + 2) * 2 ^ 32 + readLow platform (now + 1), now + 3)

/-- The loop of `hpet_init` over the timers that are left. -/
def clearTimers : ℕ → UInt32 → ℕ → Bool × ℕ
  | 0, _, now => (true, now)
  | remaining + 1, offset, now =>
    if platform.register (now + 1) offset &&& 4 ≠ 0 then (false, now + 2)
    else clearTimers remaining (offset + 0x20) (now + 2)

def hpetInit (firmwareInfo : Option HpetInfo) (timer : Timer) (now : ℕ) : Bool × Timer × ℕ :=
  if timer.initialized then (timer.available, timer, now)
  else
    let timer : Timer := ⟨true, false, 0, 0, 0, false⟩
    match firmwareInfo with
    | none => (false, timer, now)
    | some info =>
      let physicalPage := info.physicalAddress &&& ~~~(pageSize - 1)
      let pageOffset := info.physicalAddress &&& (pageSize - 1)
      if platform.inKernelDirectory = false ∨ info.physicalAddress < pageSize ∨
          info.physicalAddress &&& 0x3FF ≠ 0 ∨ 0xFFFFFFFF - 1023 < info.physicalAddress ∨
          platform.pagingIsMapped hpetMapVirtual = true ∨
          platform.pagingMapPage hpetMapVirtual physicalPage = false then (false, timer, now)
      else
        let capabilityLow := platform.register now 0
        let capabilityHigh := platform.register (now + 1) 4
        if capabilityLow ≠ info.eventTimerBlockId ∨ capabilityHigh = 0 ∨
            hpetMaxPeriodFemtoseconds < capabilityHigh.toNat then (false, timer, now + 2)
        else
          let timerCount := ((capabilityLow >>> 8) &&& 0x1F) + 1
          let requiredBytes := 0x100 + (timerCount - 1) * 0x20 + 4
          if pageSize < pageOffset + requiredBytes ∧ (0xFFFFFFFF - pageSize < physicalPage ∨
              platform.pagingIsMapped (hpetMapVirtual + pageSize) = true ∨
              platform.pagingMapPage (hpetMapVirtual + pageSize) (physicalPage + pageSize) =
                false) then (false, timer, now + 2)
          else
            -- the configuration is read at the instant between
            match clearTimers platform timerCount.toNat 0x100 (now + 3) with
            | (false, now) => (false, timer, now)
            | (true, now) =>
              if platform.register now 0x10 &&& 3 ≠ 1 then (false, timer, now + 1)
              else (true, { timer with
                available := true
                period := capabilityHigh
                has64bitCounter := decide (capabilityLow &&& 0x2000 ≠ 0)
                counterLastLow := readLow platform (now + 1) }, now + 2)

/-- The value, the last low half and the count of the wraps. -/
def hpetExtendCounter32 (low lastLow wrapCount : ℕ) : ℕ × ℕ × ℕ :=
  let wrapCount := if low < lastLow then (wrapCount + 1) % 2 ^ 32 else wrapCount
  (wrapCount * 2 ^ 32 + low, low, wrapCount)

/-- Nothing if the loop has not ended after as many turns as there are high halves. -/
def hpetTicks (timer : Timer) (now : ℕ) : Option (ℕ × Timer × ℕ) :=
  if ¬(timer.initialized ∧ timer.available) then some (0, timer, now)
  else if timer.has64bitCounter then
    (readCounter64bit platform (2 ^ 32) now).map fun (ticks, now) ↦ (ticks, timer, now)
  else
    let (ticks, lastLow, high) :=
      hpetExtendCounter32 (readLow platform now) timer.counterLastLow timer.counterHigh
    some (ticks, { timer with counterLastLow := lastLow, counterHigh := high }, now + 1)

def hpetMaintain (timer : Timer) (now : ℕ) : Option (Timer × ℕ) :=
  if timer.initialized ∧ timer.available ∧ ¬timer.has64bitCounter then
    (hpetTicks platform timer now).map Prod.snd
  else some (timer, now)

inductive Call where
  | hpetTicks
  | hpetMaintain

/-- What a call of `hpet_ticks` returned, and the instants it lasted. -/
structure Sample where
  ticks : ℕ
  first : ℕ
  next : ℕ

def runCalls : List Call → Timer → ℕ → Option (List Sample)
  | [], _, _ => some []
  | .hpetTicks :: rest, timer, now =>
    (Hpet.hpetTicks platform timer now).bind fun (ticks, timer, next) ↦
      (runCalls rest timer next).map (⟨ticks, now, next⟩ :: ·)
  | .hpetMaintain :: rest, timer, now =>
    (Hpet.hpetMaintain platform timer now).bind fun (timer, next) ↦ runCalls rest timer next

end Driver

/-- The counter had the value that was returned while the call lasted. -/
def Exact (platform : Platform) (sample : Sample) : Prop :=
  ∃ instant, sample.first ≤ instant ∧ instant < sample.next ∧ sample.ticks = platform.count instant

/-- One call after the other, from an instant on. -/
def Consecutive (now : ℕ) (samples : List Sample) : Prop :=
  (∀ sample ∈ samples, now ≤ sample.first) ∧
    samples.Pairwise fun first second ↦ first.next ≤ second.first

section Calls

variable {platform : Platform} {timer : Timer} {now : ℕ} {samples : List Sample}

/-- Exact samples do not decrease. -/
theorem Consecutive.ticks_le (hcount : Monotone platform.count) (h : Consecutive now samples)
    (hexact : ∀ sample ∈ samples, Exact platform sample) :
    samples.Pairwise fun first second ↦ first.ticks ≤ second.ticks := by
  refine h.2.imp_of_mem fun hfirst hsecond hnext ↦ ?_
  obtain ⟨earlier, -, hearlier, hticks⟩ := hexact _ hfirst
  obtain ⟨later, hlater, -, hticks'⟩ := hexact _ hsecond
  rw [hticks, hticks']
  exact hcount (by omega)

theorem Consecutive.cons {sample : Sample} (h : Consecutive sample.next samples)
    (hnow : now ≤ sample.first) (hnext : sample.first ≤ sample.next) :
    Consecutive now (sample :: samples) := by
  refine ⟨?_, List.pairwise_cons.2 ⟨h.1, h.2⟩⟩
  simp only [List.mem_cons]
  rintro other (rfl | hother)
  · exact hnow
  · exact (hnow.trans hnext).trans (h.1 other hother)

/-- A turn of the loop that does not end it sees the high half grow, which has an end. -/
theorem readCounter64bit_exact (hcount : Monotone platform.count)
    (hwide : ∀ instant, platform.count instant < 2 ^ 64) {steps : ℕ}
    (hsteps : 2 ^ 32 ≤ steps + readHigh platform now) :
    ∃ ticks next, readCounter64bit platform steps now = some (ticks, next) ∧
      now ≤ next ∧ Exact platform ⟨ticks, now, next⟩ := by
  have hhigh : ∀ instant, readHigh platform instant = platform.count instant / 2 ^ 32 :=
    fun instant ↦ Nat.mod_eq_of_lt (by have := hwide instant; omega)
  induction steps generalizing now with
  | zero =>
    have hnow := hwide now
    rw [hhigh] at hsteps
    omega
  | succ steps ih =>
    have hfirst := hcount (show now ≤ now + 1 by omega)
    have hsecond := hcount (show now + 1 ≤ now + 2 by omega)
    have hthird := hcount (show now + 2 ≤ now + 3 by omega)
    rw [readCounter64bit]
    simp only [hhigh, readLow] at hsteps ih ⊢
    split_ifs with hmoved
    · obtain ⟨ticks, next, hresult, hnext, instant, hle, hlt, hticks⟩ := @ih (now + 3) (by omega)
      exact ⟨ticks, next, hresult, by omega, instant, by dsimp only at hle ⊢; omega, hlt, hticks⟩
    · refine ⟨_, _, rfl, by omega, now + 1, by dsimp only; omega, by dsimp only; omega, ?_⟩
      dsimp only
      omega

section Wide

variable (hcount : Monotone platform.count) (hwide : ∀ instant, platform.count instant < 2 ^ 64)
  (hready : timer.initialized ∧ timer.available) (hmode : timer.has64bitCounter = true)
include hcount hwide hready hmode

theorem hpetTicks_wide (now : ℕ) : ∃ ticks next,
    hpetTicks platform timer now = some (ticks, timer, next) ∧ now ≤ next ∧
      Exact platform ⟨ticks, now, next⟩ := by
  obtain ⟨ticks, next, hread, hnext, hexact⟩ :=
    readCounter64bit_exact hcount hwide (Nat.le_add_right (2 ^ 32) (readHigh platform now))
  refine ⟨ticks, next, ?_, hnext, hexact⟩
  rw [hpetTicks, if_neg (not_not.2 hready), if_pos hmode, hread]
  rfl

theorem runCalls_wide (calls : List Call) (now : ℕ) : ∃ samples,
    runCalls platform calls timer now = some samples ∧ Consecutive now samples ∧
      ∀ sample ∈ samples, Exact platform sample := by
  induction calls generalizing now with
  | nil => exact ⟨[], rfl, ⟨by simp, .nil⟩, by simp⟩
  | cons call rest ih =>
    cases call with
    | hpetTicks =>
      obtain ⟨ticks, next, hticks, hnext, hexact⟩ := hpetTicks_wide hcount hwide hready hmode now
      obtain ⟨samples, hrest, hconsecutive, hall⟩ := ih next
      refine ⟨⟨ticks, now, next⟩ :: samples, ?_, hconsecutive.cons le_rfl hnext, ?_⟩
      · rw [runCalls, hticks, Option.bind_some]
        dsimp only
        rw [hrest, Option.map_some]
      · exact List.forall_mem_cons.2 ⟨hexact, hall⟩
    | hpetMaintain =>
      obtain ⟨samples, hrest, hsamples⟩ := ih now
      refine ⟨samples, ?_, hsamples⟩
      rw [runCalls, hpetMaintain, if_neg fun hnarrow ↦ hnarrow.2.2 hmode, Option.bind_some]
      exact hrest

end Wide

/-- The driver has seen the counter as it was at an instant, up to 64 bits. -/
structure Follows (platform : Platform) (timer : Timer) (last : ℕ) : Prop where
  ready : timer.initialized ∧ timer.available
  narrow : timer.has64bitCounter = false
  low : timer.counterLastLow < 2 ^ 32
  count : timer.counterHigh * 2 ^ 32 + timer.counterLastLow = platform.count last % 2 ^ 64

theorem mod_two_pow_64 (count : ℕ) :
    count % 2 ^ 64 = count / 2 ^ 32 % 2 ^ 32 * 2 ^ 32 + count % 2 ^ 32 := by
  omega

/-- The low half has wrapped exactly if it is smaller than it was. -/
theorem hpetExtendCounter32_eq {last low high count : ℕ} (hlow : low < 2 ^ 32)
    (hsame : high * 2 ^ 32 + low = last % 2 ^ 64) (hle : last ≤ count)
    (hclose : count < last + 2 ^ 32) :
    hpetExtendCounter32 (count % 2 ^ 32) low high =
      (count % 2 ^ 64, count % 2 ^ 32, count / 2 ^ 32 % 2 ^ 32) := by
  have hlast : high = last / 2 ^ 32 % 2 ^ 32 ∧ low = last % 2 ^ 32 := by omega
  have hwraps : (if count % 2 ^ 32 < low then (high + 1) % 2 ^ 32 else high) =
      count / 2 ^ 32 % 2 ^ 32 := by
    rw [hlast.1, hlast.2]
    split_ifs with hwrapped
    · rw [Nat.mod_add_mod, show count / 2 ^ 32 = last / 2 ^ 32 + 1 by omega]
    · rw [show count / 2 ^ 32 = last / 2 ^ 32 by omega]
  rw [hpetExtendCounter32, hwraps, mod_two_pow_64]

theorem Follows.hpetTicks {last : ℕ} (h : Follows platform timer last)
    (hcount : Monotone platform.count)
    (hclose : platform.count (last + 1) < platform.count last + 2 ^ 32) :
    ∃ next, Hpet.hpetTicks platform timer (last + 1) =
      some (platform.count (last + 1) % 2 ^ 64, next, last + 2) ∧
      Follows platform next (last + 1) := by
  have hextend := hpetExtendCounter32_eq h.low h.count (hcount (Nat.le_succ last)) hclose
  refine ⟨{ timer with
    counterLastLow := platform.count (last + 1) % 2 ^ 32
    counterHigh := platform.count (last + 1) / 2 ^ 32 % 2 ^ 32 }, ?_, h.ready, h.narrow,
    Nat.mod_lt _ (by norm_num), (mod_two_pow_64 _).symm⟩
  rw [Hpet.hpetTicks, if_neg (not_not.2 h.ready), if_neg (by rw [h.narrow]; decide), readLow,
    hextend]

theorem Follows.runCalls {last : ℕ} (h : Follows platform timer last)
    (hcount : Monotone platform.count) (calls : List Call)
    (hclose : ∀ index < calls.length,
      platform.count (last + index + 1) < platform.count (last + index) + 2 ^ 32) :
    ∃ samples, Hpet.runCalls platform calls timer (last + 1) = some samples ∧
      Consecutive (last + 1) samples ∧ ∀ sample ∈ samples, sample.first < sample.next ∧
        sample.ticks = platform.count sample.first % 2 ^ 64 := by
  induction calls generalizing timer last with
  | nil => exact ⟨[], rfl, ⟨by simp, .nil⟩, by simp⟩
  | cons call rest ih =>
    obtain ⟨next, hticks, hnext⟩ := h.hpetTicks hcount (hclose 0 (Nat.succ_pos _))
    obtain ⟨samples, hrest, hconsecutive, hall⟩ := ih hnext fun index hindex ↦ by
      have hstep := hclose (index + 1) (Nat.succ_lt_succ hindex)
      rwa [Nat.add_comm index, ← Nat.add_assoc] at hstep
    cases call with
    | hpetTicks =>
      refine ⟨⟨platform.count (last + 1) % 2 ^ 64, last + 1, last + 2⟩ :: samples, ?_,
        hconsecutive.cons le_rfl (Nat.le_succ _), ?_⟩
      · rw [Hpet.runCalls, hticks, Option.bind_some]
        dsimp only
        rw [hrest, Option.map_some]
      · exact List.forall_mem_cons.2 ⟨⟨Nat.lt_succ_self _, rfl⟩, hall⟩
    | hpetMaintain =>
      refine ⟨samples, ?_, ⟨fun sample hsample ↦ Nat.le_of_succ_le (hconsecutive.1 _ hsample),
        hconsecutive.2⟩, hall⟩
      rw [Hpet.runCalls, Hpet.hpetMaintain, if_pos ⟨h.ready.1, h.ready.2, by rw [h.narrow]; decide⟩,
        hticks, Option.map_some, Option.bind_some]
      exact hrest

end Calls

/-- After a successful `hpet_init` the driver has read the counter once. -/
theorem follows_hpetInit {platform : Platform} {firmwareInfo : Option HpetInfo} {cold timer : Timer}
    {now start : ℕ} (hcold : cold.initialized = false)
    (hinit : hpetInit platform firmwareInfo cold now = (true, timer, start)) :
    (timer.initialized ∧ timer.available) ∧ timer.counterHigh = 0 ∧
      ∃ last, start = last + 1 ∧ timer.counterLastLow = readLow platform last := by
  unfold hpetInit at hinit
  rw [if_neg (by rw [hcold]; decide)] at hinit
  cases firmwareInfo with
  | none => cases hinit
  | some info =>
    dsimp only at hinit
    split_ifs at hinit
    · cases hinit
    · cases hinit
    · cases hinit
    · rcases hclear : clearTimers platform _ 0x100 (now + 3) with ⟨cleared, done⟩
      rw [hclear] at hinit
      cases cleared with
      | false => cases hinit
      | true =>
        dsimp only at hinit
        split_ifs at hinit
        · cases hinit
        · cases hinit
          exact ⟨⟨rfl, rfl⟩, rfl, done + 1, rfl, rfl⟩

/-- Time does not run backwards. After a successful `hpet_init`, whose last read of the counter is
at `last`, every run of calls returns: a counter of 64 bits is read as it was at some instant of
the call. A counter of 32 bits is extended to the true one, if the reset, that read and the calls
are less than `2 ^ 32` counts apart. -/
theorem hpet_time_never_decreases {platform : Platform} {firmwareInfo : Option HpetInfo}
    {cold timer : Timer} {now start : ℕ} (hcold : cold.initialized = false)
    (hinit : hpetInit platform firmwareInfo cold now = (true, timer, start))
    (hcount : Monotone platform.count) (calls : List Call) :
    (timer.has64bitCounter = true → (∀ instant, platform.count instant < 2 ^ 64) →
      ∃ samples, runCalls platform calls timer start = some samples ∧
        (∀ sample ∈ samples, Exact platform sample) ∧
        samples.Pairwise fun first second ↦ first.ticks ≤ second.ticks) ∧
    (timer.has64bitCounter = false → ∃ last, start = last + 1 ∧
      (platform.count last < 2 ^ 32 → (∀ index < calls.length,
        platform.count (last + index + 1) < platform.count (last + index) + 2 ^ 32) →
      ∃ samples, runCalls platform calls timer start = some samples ∧
        (∀ sample ∈ samples, platform.count sample.first < 2 ^ 64 →
          sample.ticks = platform.count sample.first) ∧
        ((∀ sample ∈ samples, platform.count sample.first < 2 ^ 64) →
          samples.Pairwise fun first second ↦ first.ticks ≤ second.ticks))) := by
  obtain ⟨hready, hhigh, last, rfl, hlow⟩ := follows_hpetInit hcold hinit
  refine ⟨fun hmode hwide ↦ ?_, fun hmode ↦ ⟨last, rfl, fun hstart hclose ↦ ?_⟩⟩
  · obtain ⟨samples, hrun, hconsecutive, hexact⟩ :=
      runCalls_wide hcount hwide hready hmode calls (last + 1)
    exact ⟨samples, hrun, hexact, hconsecutive.ticks_le hcount hexact⟩
  · have hfollows : Follows platform timer last := by
      refine ⟨hready, hmode, ?_, ?_⟩ <;> rw [hlow, readLow]
      · exact Nat.mod_lt _ (by norm_num)
      · rw [hhigh, Nat.zero_mul, Nat.zero_add, Nat.mod_eq_of_lt hstart,
          Nat.mod_eq_of_lt (hstart.trans (by norm_num))]
    obtain ⟨samples, hrun, hconsecutive, hall⟩ := hfollows.runCalls hcount calls hclose
    have hvalue : ∀ sample ∈ samples, platform.count sample.first < 2 ^ 64 →
        sample.ticks = platform.count sample.first := fun sample hsample hbelow ↦
      (hall sample hsample).2.trans (Nat.mod_eq_of_lt hbelow)
    refine ⟨samples, hrun, hvalue, fun hbelow ↦ hconsecutive.ticks_le hcount ?_⟩
    exact fun sample hsample ↦
      ⟨sample.first, le_rfl, (hall sample hsample).1, hvalue sample hsample (hbelow sample hsample)⟩

/-- One timer of 100 MHz, a counter of 32 bits that is read every second. -/
def smallPlatform : Platform where
  count instant := instant * 10 ^ 8
  register _ offset := if offset = 4 then 10000000 else if offset = 0x10 then 1 else 0
  inKernelDirectory := true
  pagingIsMapped _ := false
  pagingMapPage _ _ := true

def coldTimer : Timer := ⟨false, false, 0, 0, 0, false⟩

theorem hpet_time_never_decreases_second :
    ∃ timer start, hpetInit smallPlatform (some ⟨0xFED00000, 0⟩) coldTimer 0 =
        (true, timer, start) ∧
      ∃ samples, runCalls smallPlatform [.hpetTicks, .hpetMaintain, .hpetTicks] timer start =
        some samples ∧ ((∀ sample ∈ samples, smallPlatform.count sample.first < 2 ^ 64) →
          samples.Pairwise fun first second ↦ first.ticks ≤ second.ticks) := by
  have hinit : hpetInit smallPlatform (some ⟨0xFED00000, 0⟩) coldTimer 0 =
      (true, ⟨true, true, 10000000, 0, 600000000, false⟩, 7) := by
    decide
  obtain ⟨last, hlast, hnarrow⟩ := (hpet_time_never_decreases rfl hinit
    (fun _ _ h ↦ Nat.mul_le_mul_right _ h) [.hpetTicks, .hpetMaintain, .hpetTicks]).2 rfl
  obtain rfl : last = 6 := by omega
  obtain ⟨samples, hrun, -, hsorted⟩ := hnarrow (by decide) fun index _ ↦ by
    dsimp only [smallPlatform]
    omega
  exact ⟨_, _, hinit, samples, hrun, hsorted⟩

end EfesOS.Drivers.Hpet
