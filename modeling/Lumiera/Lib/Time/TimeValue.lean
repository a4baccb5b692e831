import Mathlib.Algebra.Order.Group.Abs
import Mathlib.Algebra.Order.Group.Int

/-! # Time values and time spans (`lib/time/timevalue.hpp`)

Times are counted in micro ticks, as 64-bit integers (`gavl_time_t`). The range of valid times is
confined to a fraction of the integer range, so that sums and differences of valid times do not
overflow; they are thus computed in `Int` here. -/

namespace Lumiera.Lib

namespace Time

/-- Largest valid time. -/
def MAX : Int := 9223372036854775807 / 30

/-- Smallest valid time. -/
def MIN : Int := -MAX

/-- Border condition marker: before any time value. -/
def ANYTIME : Int := MIN

/-- Border condition marker: after any time value. -/
def NEVER : Int := MAX

/-- Maximum temporal extension (`Duration::MAX`). -/
def durationMax : Int := MAX - MIN

/-- Confine a value to a symmetric range. -/
def symmetricLimit (raw lim : Int) : Int :=
  if raw > lim then lim else if raw < -lim then -lim else raw

/-- Safe calculation of an explicitly limited time offset. -/
def limitedDelta (origin target : Int) : Int :=
  if decide (origin < 0) ≠ decide (target < 0) then
    symmetricLimit (symmetricLimit target durationMax - symmetricLimit origin durationMax)
      durationMax
  else
    symmetricLimit (target - origin) durationMax

theorem limitedDelta_of_valid {start after : Int} (hs : MIN ≤ start) (hle : start ≤ after)
    (ha : after ≤ MAX) : limitedDelta start after = after - start := by
  simp only [limitedDelta, symmetricLimit, durationMax, MIN] at *
  split_ifs <;> omega

end Time

/-- A time interval: a start point and a duration, which is never negative. -/
structure TimeSpan where
  start : Int
  dur : Int
  dur_nonneg : 0 ≤ dur
  deriving DecidableEq, Repr

namespace TimeSpan

/-- The point after the end of the interval (`TimeSpan::end`). -/
def after (span : TimeSpan) : Int := span.start + span.dur

/-- The interval between two points, given in any order. -/
def ofBounds (start after : Int) : TimeSpan where
  start := if start ≤ after then start else after
  dur := |Time.limitedDelta start after|
  dur_nonneg := abs_nonneg _

/-- The complete time axis. -/
def ALL : TimeSpan := ⟨Time.MIN, Time.durationMax, by decide⟩

theorem start_ofBounds {start after : Int} (hle : start ≤ after) : (ofBounds start after).start = start := if_pos hle

theorem after_ofBounds {start after : Int} (hs : Time.MIN ≤ start) (hle : start ≤ after)
    (ha : after ≤ Time.MAX) : (ofBounds start after).after = after := by
  have hdur : (ofBounds start after).dur = after - start := by
    simp only [ofBounds]
    rw [Time.limitedDelta_of_valid hs hle ha, abs_of_nonneg (Int.sub_nonneg_of_le hle)]
  rw [TimeSpan.after, start_ofBounds hle]
  omega

end TimeSpan

end Lumiera.Lib
