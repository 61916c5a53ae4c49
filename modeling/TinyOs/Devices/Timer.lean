import TinyOs.Basic
import Mathlib.Algebra.Group.Int.Defs

/-!
The calibration of the timer and its sub-tick delays, `devices/timer.c`. `timer_calibrate` sets
`loops_per_tick`, the turns of `busy_wait` that fill a timer tick, from the answers of
`too_many_loops (loops)`, which runs `busy_wait (loops)` from the start of a tick and reports
whether the tick count moved. It doubles `loops_per_tick` from `1u << 10` while twice it is not
too many, an `unsigned` shift guarded by `ASSERT (loops_per_tick != 0)`, and then tries the
nine bits below the power of two it reached, each one added to that power alone.
`real_time_sleep` sleeps whole ticks, or busy-waits with `loops_per_tick` below a tick.

`too_many_loops` answers from the machine's timing, so it is a parameter of the model. The
results are stated for `aboveTick T`, the machine on which `busy_wait (loops)` fills more than
a tick exactly when `loops` is above `T`.

* `doubleLoop_fuel`: on every machine the doubling loop ends within the rounds the model gives
  it;
* `timer_calibrate_within_two`: when `T < 2 ^ 31` the calibration ends, and `loops_per_tick` is
  within a factor of two of `T` (of `2 ^ 10` on a machine slower than that);
* `timer_calibrate_asserts`: when `2 ^ 31 ≤ T` the shift wraps to `0` and the assertion fails;
* `real_time_sleep_sub_tick`: a delay of less than a tick busy-waits at most the loops its
  time takes, with no `int64_t` overflow on the way.
-/

namespace TinyOs

namespace Devices

/-- `TIMER_FREQ`: timer interrupts per second. -/
def timerFreq : ℕ := 100

/-- The first loop of `timer_calibrate`, for at most `fuel` rounds: while
`!too_many_loops (loops_per_tick << 1)`, `loops_per_tick <<= 1` and
`ASSERT (loops_per_tick != 0)`. `none` when the assertion fails. -/
def doubleLoop (tooManyLoops : ℕ → Bool) : ℕ → ℕ → Option ℕ
  | 0, _ => none
  | fuel + 1, loopsPerTick =>
    if tooManyLoops (wrap32 (loopsPerTick <<< 1)) then some loopsPerTick
    else if wrap32 (loopsPerTick <<< 1) = 0 then none
    else doubleLoop tooManyLoops fuel (wrap32 (loopsPerTick <<< 1))

/-- The second loop of `timer_calibrate`, for at most `fuel` rounds: for `test_bit` from
`high_bit >> 1` while `test_bit != high_bit >> 10`, `loops_per_tick |= test_bit` unless
`too_many_loops (high_bit | test_bit)`. -/
def refineLoop (tooManyLoops : ℕ → Bool) (highBit : ℕ) : ℕ → ℕ → ℕ → ℕ
  | 0, _, loopsPerTick => loopsPerTick
  | fuel + 1, testBit, loopsPerTick =>
    if testBit = highBit >>> 10 then loopsPerTick
    else
      refineLoop tooManyLoops highBit fuel (testBit >>> 1)
        (if tooManyLoops (highBit ||| testBit) then loopsPerTick else loopsPerTick ||| testBit)

/-- `timer_calibrate ()`: the `loops_per_tick` it sets, `none` when its assertion fails. From
`1u << 10` the doubling loop has 22 rounds before the shift reaches bit 32 (`doubleLoop_fuel`);
the refining loop stops after 9, `test_bit` having been halved from `high_bit >> 1` to
`high_bit >> 10`. -/
def timerCalibrate (tooManyLoops : ℕ → Bool) : Option ℕ :=
  (doubleLoop tooManyLoops 22 (1 <<< 10)).map fun highBit =>
    refineLoop tooManyLoops highBit 9 (highBit >>> 1) highBit

/-- `too_many_loops` on the machine where `busy_wait (loops)` fills more than a tick exactly
when `loops` is above `T`. -/
def aboveTick (T loops : ℕ) : Bool := decide (T < loops)

/-- `a * b` in `int64_t`, wrapping as the machine does. -/
def mul64 (a b : ℤ) : ℤ := Int.bmod (a * b) (2 ^ 64)

/-- What `real_time_sleep` leaves the thread doing. -/
inductive Delay
  /-- `timer_sleep (ticks)`. -/
  | sleep (ticks : ℤ)
  /-- `busy_wait (loops)`. -/
  | busyWait (loops : ℤ)
  deriving DecidableEq

/-- `real_time_sleep (num, denom)` once `loops_per_tick` is set: `num * TIMER_FREQ / denom`
ticks in `int64_t`, slept with `timer_sleep` when positive; otherwise `busy_wait` for
`loops_per_tick * num / 1000 * TIMER_FREQ / (denom / 1000)` loops. The divisions of C truncate
toward zero. `none` when `ASSERT (denom % 1000 == 0)` fails. -/
def realTimeSleep (loopsPerTick : ℕ) (num denom : ℤ) : Option Delay :=
  if 0 < (mul64 num timerFreq).tdiv denom then some (.sleep ((mul64 num timerFreq).tdiv denom))
  else if denom.tmod 1000 = 0 then
    some (.busyWait
      ((mul64 ((mul64 loopsPerTick num).tdiv 1000) timerFreq).tdiv (denom.tdiv 1000)))
  else none

/-- `timer_msleep (ms)`: `real_time_sleep (ms, 1000)`. -/
def timerMsleep (loopsPerTick : ℕ) (ms : ℤ) : Option Delay := realTimeSleep loopsPerTick ms 1000

/-- `timer_usleep (us)`: `real_time_sleep (us, 1000 * 1000)`. -/
def timerUsleep (loopsPerTick : ℕ) (us : ℤ) : Option Delay :=
  realTimeSleep loopsPerTick us (1000 * 1000)

/-- `timer_nsleep (ns)`: `real_time_sleep (ns, 1000 * 1000 * 1000)`. -/
def timerNsleep (loopsPerTick : ℕ) (ns : ℤ) : Option Delay :=
  realTimeSleep loopsPerTick ns (1000 * 1000 * 1000)

/-! ### The doubling loop -/

lemma wrap32_two_pow_shl {k : ℕ} (hk : k ≤ 30) : wrap32 (2 ^ k <<< 1) = 2 ^ (k + 1) := by
  rw [Nat.shiftLeft_eq, ← Nat.pow_add]
  exact wrap32_of_lt (Nat.pow_lt_pow_right Nat.one_lt_two (by omega))

lemma wrap32_two_pow_31_shl : wrap32 (2 ^ 31 <<< 1) = 0 := by decide

/-- From `2 ^ k` the doubling loop ends within `32 - k` rounds on every machine, by returning or
by failing its assertion once the shift has wrapped to `0`: more fuel changes nothing. The
induction is on the rounds left, `31 - k`. -/
lemma doubleLoop_fuel (f : ℕ → Bool) (n : ℕ) :
    ∀ m k, k + m = 31 → doubleLoop f (32 - k + n) (2 ^ k) = doubleLoop f (32 - k) (2 ^ k) := by
  intro m
  induction m with
  | zero =>
    intro k hk
    obtain rfl : k = 31 := by omega
    simp only [show 32 - 31 + n = n + 1 by omega, doubleLoop, wrap32_two_pow_31_shl, if_true]
  | succ m ih =>
    intro k hk
    rw [show 32 - k + n = (32 - (k + 1) + n) + 1 by omega, show 32 - k = (32 - (k + 1)) + 1 by omega]
    simp only [doubleLoop, wrap32_two_pow_shl (show k ≤ 30 by omega), ih (k + 1) (by omega)]

section Threshold

variable {T : ℕ}

lemma max_lt_two_pow_31 (hT : T < 2 ^ 31) : max T (2 ^ 10) < 2 ^ 31 :=
  max_lt hT (by decide)

/-- On `aboveTick T` with `T < 2 ^ 31`, the doubling loop from a power of two `2 ^ k`, with
`10 ≤ k` and `2 ^ k ≤ max T (2 ^ 10)`, stops at the power of two `2 ^ j` with
`2 ^ j ≤ max T (2 ^ 10) < 2 ^ (j + 1)`. The induction is on the fuel, which is enough: the
value stays below `2 ^ 31`, so the shift never wraps. -/
lemma doubleLoop_aboveTick (hT : T < 2 ^ 31) :
    ∀ fuel k, 32 ≤ fuel + k → 10 ≤ k → 2 ^ k ≤ max T (2 ^ 10) →
      ∃ j, doubleLoop (aboveTick T) fuel (2 ^ k) = some (2 ^ j) ∧ 10 ≤ j ∧
        2 ^ j ≤ max T (2 ^ 10) ∧ max T (2 ^ 10) < 2 ^ (j + 1) := by
  intro fuel
  have hk31 : ∀ k, 2 ^ k ≤ max T (2 ^ 10) → k < 31 := fun k hk =>
    (Nat.pow_lt_pow_iff_right Nat.one_lt_two).mp (lt_of_le_of_lt hk (max_lt_two_pow_31 hT))
  induction fuel with
  | zero =>
    intro k hfuel _ hk
    have := hk31 k hk
    omega
  | succ fuel ih =>
    intro k hfuel hk10 hk
    have hk30 : k ≤ 30 := by have := hk31 k hk; omega
    simp only [doubleLoop, wrap32_two_pow_shl hk30, aboveTick]
    by_cases hstop : T < 2 ^ (k + 1)
    · -- too many loops: the loop stops at `2 ^ k`
      have h10 : 2 ^ 10 < 2 ^ (k + 1) := Nat.pow_lt_pow_right Nat.one_lt_two (by omega)
      exact ⟨k, by simp [hstop], hk10, hk, max_lt hstop h10⟩
    · -- not too many: `2 ^ (k + 1) ≤ T`, so the loop goes on from `2 ^ (k + 1)`
      have hne : (2 : ℕ) ^ (k + 1) ≠ 0 := (Nat.two_pow_pos _).ne'
      simp only [hstop, decide_false, Bool.false_eq_true, if_false, hne]
      exact ih (k + 1) (by omega) (by omega) ((Nat.not_lt.mp hstop).trans (le_max_left _ _))

/-- On `aboveTick T` with `2 ^ 31 ≤ T` no doubling is too many: the value reaches `2 ^ 31`,
whose shift wraps to `0`, which is not too many either, and the assertion fails. -/
lemma doubleLoop_aboveTick_none (hT : 2 ^ 31 ≤ T) :
    ∀ fuel k, k ≤ 31 → doubleLoop (aboveTick T) fuel (2 ^ k) = none := by
  intro fuel
  induction fuel with
  | zero => intro k _; rfl
  | succ fuel ih =>
    intro k hk
    rcases Nat.lt_or_ge k 31 with hk30 | hk31
    · have hle : (2 : ℕ) ^ (k + 1) ≤ T := le_trans (Nat.pow_le_pow_right Nat.two_pos hk30) hT
      have hne : (2 : ℕ) ^ (k + 1) ≠ 0 := (Nat.two_pow_pos _).ne'
      simp only [doubleLoop, wrap32_two_pow_shl (show k ≤ 30 by omega), aboveTick,
        show ¬ T < 2 ^ (k + 1) by omega, decide_false, Bool.false_eq_true, if_false, hne]
      exact ih (k + 1) (by omega)
    · obtain rfl : k = 31 := by omega
      rw [doubleLoop, wrap32_two_pow_31_shl]
      simp [aboveTick]

end Threshold

/-! ### The refining loop -/

/-- The refining loop keeps `loops_per_tick` at least `lo` and below `2 ^ n` on every machine:
it only ors in test bits, each below `2 ^ n`. The induction is on the rounds. -/
lemma refineLoop_bounds (f : ℕ → Bool) (highBit lo n : ℕ) :
    ∀ fuel testBit loopsPerTick, lo ≤ loopsPerTick → loopsPerTick < 2 ^ n → testBit < 2 ^ n →
      lo ≤ refineLoop f highBit fuel testBit loopsPerTick ∧
        refineLoop f highBit fuel testBit loopsPerTick < 2 ^ n := by
  intro fuel
  induction fuel with
  | zero => intro _ loopsPerTick hlo hhi _; exact ⟨hlo, hhi⟩
  | succ fuel ih =>
    intro testBit loopsPerTick hlo hhi htest
    simp only [refineLoop]
    split_ifs
    · exact ⟨hlo, hhi⟩
    · exact ih _ _ hlo hhi (lt_of_le_of_lt (Nat.shiftRight_le _ _) htest)
    · exact ih _ _ (le_trans hlo Nat.left_le_or) (Nat.or_lt_two_pow hhi htest)
        (lt_of_le_of_lt (Nat.shiftRight_le _ _) htest)

/-! ### The calibration -/

/-- **The calibration is within a factor of two.** On a machine that runs fewer than `2 ^ 31`
loops in a tick, `timer_calibrate` ends without failing its assertion, and `loops_per_tick` is
more than half and less than twice the loops of a tick, or of `2 ^ 10` where the machine runs
fewer. The doubling loop brackets `max T (2 ^ 10)` between `2 ^ j` and `2 ^ (j + 1)`, and the
refining loop keeps `loops_per_tick` in the same bracket. -/
theorem timer_calibrate_within_two {T : ℕ} (hT : T < 2 ^ 31) :
    ∃ loopsPerTick, timerCalibrate (aboveTick T) = some loopsPerTick ∧
      max T (2 ^ 10) < 2 * loopsPerTick ∧ loopsPerTick < 2 * max T (2 ^ 10) := by
  obtain ⟨j, hdouble, -, hlo, hhi⟩ :=
    doubleLoop_aboveTick hT 22 10 (by decide) le_rfl (le_max_right _ _)
  have hpow : (2 : ℕ) ^ (j + 1) = 2 * 2 ^ j := by rw [Nat.pow_succ, Nat.mul_comm]
  have hbit : (2 : ℕ) ^ j >>> 1 < 2 ^ (j + 1) :=
    lt_of_le_of_lt (Nat.shiftRight_le _ _) (Nat.pow_lt_pow_right Nat.one_lt_two (Nat.lt_succ_self j))
  obtain ⟨hr₁, hr₂⟩ := refineLoop_bounds (aboveTick T) (2 ^ j) (2 ^ j) (j + 1) 9 _ _ le_rfl
    (Nat.pow_lt_pow_right Nat.one_lt_two (Nat.lt_succ_self j)) hbit
  refine ⟨refineLoop (aboveTick T) (2 ^ j) 9 (2 ^ j >>> 1) (2 ^ j), ?_, ?_, ?_⟩
  · rw [timerCalibrate, show (1 <<< 10 : ℕ) = 2 ^ 10 from rfl, hdouble, Option.map_some]
  · omega
  · omega

/-- A machine that runs a million loops in a tick. -/
theorem timer_calibrate_within_two_million :
    (1000000 : ℕ) < 2 ^ 31 ∧ ∃ loopsPerTick, timerCalibrate (aboveTick 1000000) = some loopsPerTick ∧
      max 1000000 (2 ^ 10) < 2 * loopsPerTick ∧ loopsPerTick < 2 * max 1000000 (2 ^ 10) :=
  ⟨by decide, timer_calibrate_within_two (by decide)⟩

/-- **A machine too fast fails the calibration.** On a machine that runs `2 ^ 31` loops or more
in a tick, `loops_per_tick << 1` wraps to `0` before any doubling is too many, and
`ASSERT (loops_per_tick != 0)` fails. -/
theorem timer_calibrate_asserts {T : ℕ} (hT : 2 ^ 31 ≤ T) : timerCalibrate (aboveTick T) = none := by
  rw [timerCalibrate, show (1 <<< 10 : ℕ) = 2 ^ 10 from rfl,
    doubleLoop_aboveTick_none hT 22 10 (by decide), Option.map_none]

/-- A machine that runs `2 ^ 31` loops in a tick. -/
theorem timer_calibrate_asserts_at_two_pow :
    (2 : ℕ) ^ 31 ≤ 2 ^ 31 ∧ timerCalibrate (aboveTick (2 ^ 31)) = none :=
  ⟨le_rfl, timer_calibrate_asserts le_rfl⟩

/-! ### Sub-tick delays -/

lemma mul64_of_lt {a b : ℤ} (h0 : 0 ≤ a * b) (h : a * b < 2 ^ 63) : mul64 a b = a * b :=
  Int.bmod_eq_of_le_mul_two (by omega)
    (by omega)

/-- The loops of the busy-wait, `x / 1000 * TIMER_FREQ / (denom / 1000)` for
`x = loops_per_tick * num`, are at most `x * TIMER_FREQ / denom`: scaling the numerator and the
denominator down by `1000` only rounds down. -/
lemma busyLoops_le {x denom : ℤ} (hx : 0 ≤ x) (hd : 0 < denom) (hdiv : 1000 ∣ denom) :
    0 ≤ x / 1000 * timerFreq / (denom / 1000) ∧
      x / 1000 * timerFreq / (denom / 1000) * denom ≤ x * timerFreq := by
  obtain ⟨D, rfl⟩ := hdiv
  have hD : 0 < D := by omega
  have hscale : 1000 * D / 1000 = D := by omega
  rw [hscale]
  have hnum : 0 ≤ x / 1000 * (timerFreq : ℤ) := by simp only [timerFreq]; omega
  refine ⟨Int.ediv_nonneg hnum hD.le, ?_⟩
  calc x / 1000 * timerFreq / D * (1000 * D)
      = x / 1000 * timerFreq / D * D * 1000 := by rw [Int.mul_comm 1000 D, Int.mul_assoc]
    _ ≤ x / 1000 * timerFreq * 1000 :=
        Int.mul_le_mul_of_nonneg_right (Int.ediv_mul_le _ hD.ne') (by decide)
    _ ≤ x * timerFreq := by simp only [timerFreq]; omega

/-- **A sub-tick delay busy-waits at most its time.** `real_time_sleep (num, denom)`, for a
time `num / denom` seconds with `num * TIMER_FREQ` in range and `denom` a positive `int32_t`
multiple of `1000`, either sleeps the exact whole number of ticks of that time, or, when that
number is `0`, busy-waits at most the loops the time takes at `loops_per_tick * TIMER_FREQ`
loops a second, so less than a tick. No `int64_t` product on the way overflows. -/
theorem real_time_sleep_sub_tick {loopsPerTick : ℕ} {num denom : ℤ}
    (hlpt : loopsPerTick < 2 ^ 32) (hnum : 0 ≤ num) (hover : num * timerFreq < 2 ^ 63)
    (hden : 0 < denom) (hden' : denom < 2 ^ 31) (hdiv : denom % 1000 = 0) :
    (0 < num * timerFreq / denom ∧
        realTimeSleep loopsPerTick num denom = some (.sleep (num * timerFreq / denom))) ∨
      (num * timerFreq < denom ∧ ∃ loops, realTimeSleep loopsPerTick num denom = some (.busyWait loops) ∧
        0 ≤ loops ∧ loops * denom ≤ loopsPerTick * num * timerFreq) := by
  have hfreq : (timerFreq : ℤ) = 100 := rfl
  have hticks : (mul64 num timerFreq).tdiv denom = num * timerFreq / denom := by
    rw [mul64_of_lt (by rw [hfreq]; omega) hover, Int.tdiv_eq_ediv_of_nonneg (by rw [hfreq]; omega)]
  by_cases hpos : 0 < num * timerFreq / denom
  · left
    exact ⟨hpos, by rw [realTimeSleep, hticks, if_pos hpos]⟩
  · right
    -- no whole tick: `num * TIMER_FREQ < denom`, so `num` is small and nothing overflows
    have hlt : num * timerFreq < denom := by
      by_contra hge
      exact hpos (Int.lt_of_lt_of_le Int.zero_lt_one
        (Int.le_ediv_of_mul_le hden (by rw [Int.one_mul]; omega)))
    have hx : 0 ≤ (loopsPerTick : ℤ) * num := Int.mul_nonneg (Int.natCast_nonneg _) hnum
    have hxlt : (loopsPerTick : ℤ) * num < 2 ^ 63 := by
      have hnum' : num < 2 ^ 25 := by rw [hfreq] at hlt; omega
      have hlpt' : (loopsPerTick : ℤ) < 2 ^ 32 := by exact_mod_cast hlpt
      calc (loopsPerTick : ℤ) * num ≤ 2 ^ 32 * num :=
            Int.mul_le_mul_of_nonneg_right hlpt'.le hnum
        _ < 2 ^ 63 := by omega
    have hscaled : mul64 ((mul64 loopsPerTick num).tdiv 1000) timerFreq =
        (loopsPerTick : ℤ) * num / 1000 * timerFreq := by
      rw [mul64_of_lt hx hxlt, Int.tdiv_eq_ediv_of_nonneg hx]
      exact mul64_of_lt (by rw [hfreq]; omega) (by rw [hfreq]; omega)
    have hdvd : (1000 : ℤ) ∣ denom := Int.dvd_of_emod_eq_zero hdiv
    obtain ⟨hloops₀, hloops⟩ := busyLoops_le hx hden hdvd
    refine ⟨hlt, _, ?_, hloops₀, hloops⟩
    rw [realTimeSleep, hticks, if_neg hpos, Int.tmod_eq_emod_of_nonneg hden.le, if_pos hdiv,
      hscaled, Int.tdiv_eq_ediv_of_nonneg (by rw [hfreq]; omega),
      Int.tdiv_eq_ediv_of_nonneg (by omega)]

/-- `timer_msleep (5)` with a million loops a tick: half a tick, busy-waited. -/
theorem real_time_sleep_sub_tick_msleep :
    1000000 < 2 ^ 32 ∧ (0 : ℤ) ≤ 5 ∧ (5 : ℤ) * timerFreq < 2 ^ 63 ∧ (0 : ℤ) < 1000 ∧
      (1000 : ℤ) < 2 ^ 31 ∧ (1000 : ℤ) % 1000 = 0 ∧
      ((0 < 5 * (timerFreq : ℤ) / 1000 ∧
          realTimeSleep 1000000 5 1000 = some (.sleep (5 * timerFreq / 1000))) ∨
        (5 * (timerFreq : ℤ) < 1000 ∧ ∃ loops, realTimeSleep 1000000 5 1000 = some (.busyWait loops) ∧
          0 ≤ loops ∧ loops * 1000 ≤ (1000000 : ℕ) * 5 * timerFreq)) :=
  ⟨by decide, by decide, by decide, by decide, by decide, by decide,
    real_time_sleep_sub_tick (by decide) (by decide) (by decide) (by decide) (by decide) (by decide)⟩

end Devices

end TinyOs
