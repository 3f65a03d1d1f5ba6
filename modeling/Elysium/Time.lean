import Elysium.Events
import Mathlib.Algebra.Order.Field.Rat
import Mathlib.Algebra.Order.Field.Basic
import Mathlib.Algebra.Order.Group.Unbundled.Abs
import Mathlib.Data.Nat.Cast.Order.Field
import Mathlib.Data.Rat.Cast.Order
import Mathlib.Tactic.FieldSimp
import Mathlib.Tactic.Linarith

set_option autoImplicit false

namespace Elysium.Time

open Events (nanosecondsInSecond timerTicks ticks_expire)

def archTimeMonotonic (frequency tsc : Nat) : Except Fault Nat :=
  if frequency / nanosecondsInSecond = 0 then .error .undefined
  else .ok (tsc / (frequency / nanosecondsInSecond))

-- What a number of timer ticks takes on the clock, unrounded: the TSC counts that go by
-- in them, over the counts that are a nanosecond to arch_time_monotonic.
def clockTime (frequency lapicFrequency ticks : Nat) : ℚ :=
  ticks * (frequency / lapicFrequency : ℚ) / (frequency / nanosecondsInSecond : Nat)

structure SameNanosecond (frequency : Nat) : Prop where
  returns : ∀ tsc < 2 ^ 64, ∃ time, archTimeMonotonic frequency tsc = .ok time
  close : ∀ tsc < 2 ^ 64, ∀ time, archTimeMonotonic frequency tsc = .ok time →
    |(time : ℚ) - tsc * nanosecondsInSecond / frequency| ≤ 1
  monotone : ∀ tsc later, tsc ≤ later → later < 2 ^ 64 → ∀ time time', archTimeMonotonic frequency tsc = .ok time →
    archTimeMonotonic frequency later = .ok time' → time ≤ time'
  timers : ∀ lapicFrequency delay, 0 < lapicFrequency → lapicFrequency < 2 ^ 64 → delay < 2 ^ 64 →
    clockTime frequency lapicFrequency (timerTicks lapicFrequency delay) ≤ max (delay : ℚ) (clockTime frequency lapicFrequency 1)

theorem monotonic_eq {frequency : Nat} (whole : frequency / nanosecondsInSecond ≠ 0) (tsc : Nat) :
    archTimeMonotonic frequency tsc = .ok (tsc / (frequency / nanosecondsInSecond)) := if_neg whole

-- A timer that is armed for a delay runs no longer than that, or for one tick.
theorem ticks_bound (lapicFrequency delay : Nat) :
    timerTicks lapicFrequency delay * nanosecondsInSecond ≤ max (lapicFrequency * delay) nanosecondsInSecond := by
  have expires := ticks_expire lapicFrequency 0 (Nat.zero_le delay)
  rw [Events.Expires, Nat.mul_zero, Nat.zero_add, Nat.zero_add] at expires
  exact expires

-- On a clock whose frequency is a multiple of 1 GHz, a tick takes what it takes.
theorem clock_time_eq (counts lapicFrequency ticks : Nat) (some : counts ≠ 0) :
    clockTime (nanosecondsInSecond * counts) lapicFrequency ticks = ticks * nanosecondsInSecond / lapicFrequency := by
  have positive : (counts : ℚ) ≠ 0 := Nat.cast_ne_zero.mpr some
  rw [clockTime, Nat.mul_div_cancel_left _ (by decide), Nat.cast_mul]
  field_simp

theorem timers_of_whole (counts lapicFrequency delay : Nat) (some : counts ≠ 0) (runs : 0 < lapicFrequency) :
    clockTime (nanosecondsInSecond * counts) lapicFrequency (timerTicks lapicFrequency delay) ≤
      max (delay : ℚ) (clockTime (nanosecondsInSecond * counts) lapicFrequency 1) := by
  have positive : (0 : ℚ) < lapicFrequency := Nat.cast_pos.mpr runs
  have bound : ((timerTicks lapicFrequency delay : ℚ) * nanosecondsInSecond) ≤ max ((lapicFrequency : ℚ) * delay) nanosecondsInSecond := by
    exact_mod_cast ticks_bound lapicFrequency delay
  rw [clock_time_eq _ _ _ some, clock_time_eq _ _ _ some, Nat.cast_one, one_mul]
  rcases le_max_iff.mp bound with inTime | oneTick
  · refine le_max_of_le_left ((div_le_iff₀ positive).mpr ?_)
    rw [mul_comm (delay : ℚ)]
    exact inTime
  · exact le_max_of_le_right (div_le_div_of_nonneg_right oneTick positive.le)

theorem close_of_whole (counts tsc : Nat) (some : counts ≠ 0) :
    |((tsc / counts : Nat) : ℚ) - tsc * nanosecondsInSecond / (nanosecondsInSecond * counts : Nat)| ≤ 1 := by
  have positive : (0 : ℚ) < counts := Nat.cast_pos.mpr (Nat.pos_of_ne_zero some)
  have exact : (tsc : ℚ) * nanosecondsInSecond / (nanosecondsInSecond * counts : Nat) = tsc / counts := by
    rw [Nat.cast_mul]
    have second : (nanosecondsInSecond : ℚ) ≠ 0 := by norm_num [nanosecondsInSecond]
    field_simp
  have below : ((tsc / counts : Nat) : ℚ) ≤ tsc / counts := Nat.cast_div_le
  have above : (tsc : ℚ) / counts ≤ (tsc / counts : Nat) + 1 := by
    rw [div_le_iff₀ positive]
    have next := (Nat.lt_div_mul_add (a := tsc) (Nat.pos_of_ne_zero some)).le
    have cast : (tsc : ℚ) ≤ (tsc / counts : Nat) * counts + counts := by exact_mod_cast next
    linarith
  rw [exact, abs_le]
  constructor <;> linarith

-- Ticks of 1 ns, two of them: at any other frequency above 1 GHz the clock is fast.
theorem fast_clock {frequency : Nat} (timers : ∀ lapicFrequency delay, 0 < lapicFrequency → lapicFrequency < 2 ^ 64 → delay < 2 ^ 64 →
      clockTime frequency lapicFrequency (timerTicks lapicFrequency delay) ≤ max (delay : ℚ) (clockTime frequency lapicFrequency 1))
    (whole : frequency / nanosecondsInSecond ≠ 0) : nanosecondsInSecond ∣ frequency := by
  have two : timerTicks nanosecondsInSecond 2 = 2 := by decide
  have late := timers nanosecondsInSecond 2 (by decide) (by decide) (by decide)
  have counts : (0 : ℚ) < (frequency / nanosecondsInSecond : Nat) := Nat.cast_pos.mpr (Nat.pos_of_ne_zero whole)
  have second : (0 : ℚ) < nanosecondsInSecond := by norm_num [nanosecondsInSecond]
  have remainder := Nat.div_add_mod frequency nanosecondsInSecond
  by_contra inexact
  have more : nanosecondsInSecond * (frequency / nanosecondsInSecond) < frequency := by
    have rest : frequency % nanosecondsInSecond ≠ 0 := fun none => inexact (Nat.dvd_of_mod_eq_zero none)
    omega
  have longer : (1 : ℚ) < clockTime frequency nanosecondsInSecond 1 := by
    rw [clockTime, Nat.cast_one, one_mul, one_lt_div counts, lt_div_iff₀ second, mul_comm]
    exact_mod_cast more
  have double : clockTime frequency nanosecondsInSecond 2 = 2 * clockTime frequency nanosecondsInSecond 1 := by
    simp only [clockTime, Nat.cast_ofNat, Nat.cast_one, one_mul, mul_div_assoc]
  rw [two, double, Nat.cast_ofNat] at late
  rcases le_max_iff.mp late with inTime | oneTick <;> linarith

theorem clock_agrees_iff (frequency : Nat) (positive : 0 < frequency) :
    SameNanosecond frequency ↔ nanosecondsInSecond ∣ frequency := by
  constructor
  · intro same
    refine fast_clock same.timers fun none => ?_
    obtain ⟨time, returned⟩ := same.returns 0 (by decide)
    rw [archTimeMonotonic, if_pos none] at returned
    cases returned
  · rintro ⟨counts, rfl⟩
    have some : counts ≠ 0 := by
      rintro rfl
      exact absurd positive (by decide)
    have quotient : nanosecondsInSecond * counts / nanosecondsInSecond = counts := Nat.mul_div_cancel_left _ (by decide)
    have whole : nanosecondsInSecond * counts / nanosecondsInSecond ≠ 0 := quotient.symm ▸ some
    refine ⟨fun tsc _ => ⟨_, monotonic_eq whole tsc⟩, ?_, ?_, fun lapicFrequency delay runs _ _ => timers_of_whole _ _ _ some runs⟩
    · intro tsc _ time returned
      rw [monotonic_eq whole, quotient] at returned
      rw [← Except.ok.inj returned]
      exact close_of_whole counts tsc some
    · intro tsc later ahead _ time time' returned returned'
      rw [monotonic_eq whole] at returned returned'
      rw [← Except.ok.inj returned, ← Except.ok.inj returned']
      exact Nat.div_le_div_right ahead

theorem clock_agrees_two_gigahertz : SameNanosecond 2000000000 :=
  (clock_agrees_iff 2000000000 (by decide)).mpr (by decide)

-- At 2.5 GHz, two seconds read as two and a half; below 1 GHz there is no reading.
theorem clock_runs_fast : ¬ SameNanosecond 2500000000 ∧ archTimeMonotonic 2500000000 5000000000 = .ok 2500000000 ∧
    archTimeMonotonic 800000000 0 = .error .undefined := by
  refine ⟨fun same => ?_, by decide, by decide⟩
  have close := same.close 5000000000 (by decide) 2500000000 (by decide)
  norm_num [nanosecondsInSecond] at close

end Elysium.Time
