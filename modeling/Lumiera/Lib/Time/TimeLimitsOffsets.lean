import Lumiera.Lib.Time.TimeLimitsFrames
import Lumiera.Lib.Time.TimeLimitsSeconds

/-! # Which times, offsets and durations are right

An offset may be built from other offsets. It is right when it is within the limits, makes a
duration within the limits, and is the exact result whenever the exact result is within the limits.
For each way to build an offset, the failing arguments are known; the smallest integer passes the
limiter, products may wrap before they are limited, and frames are not limited. -/

namespace Lumiera.Lib.RawTime

/-! ## Being right -/

/-- The exact result, given the operands. -/
def OffsetExpr.exact (bits : ℕ) : OffsetExpr → ℚ
  | distance raw => raw.toInt
  | seconds deltaInSecs => secondsExact deltaInSecs
  | frames count fps => framesExact count fps
  | between origin target => target.toInt - origin.toInt
  | add start toChain => (start.raw bits).toInt + (toChain.raw bits).toInt
  | sub start toSubtract => (start.raw bits).toInt - (toSubtract.raw bits).toInt
  | neg o => -(o.raw bits).toInt
  | scale factor o => factor.toInt * (o.raw bits).toInt
  | stretch factor o => factor.value * (o.raw bits).toInt

/-- The exact result is delivered: rational factors round down, and of seconds and frames, which
need not be a whole number of micro ticks, less than a micro tick is lost. -/
def OffsetExpr.Delivered (bits : ℕ) (e : OffsetExpr) : Prop :=
  match e with
  | stretch _ _ => (e.raw bits).toInt = ⌊e.exact bits⌋
  | seconds _ => |((e.raw bits).toInt : ℚ) - e.exact bits| < 1
  | frames _ _ => |((e.raw bits).toInt : ℚ) - e.exact bits| < 1
  | _ => ((e.raw bits).toInt : ℚ) = e.exact bits

/-- Within the limits, and exact as far as possible. -/
def OffsetExpr.Proper (bits : ℕ) (e : OffsetExpr) : Prop :=
  Within (e.raw bits) ∧ (|e.exact bits| ≤ maxTicks → e.Delivered bits)

/-- **An offset is right**, and all those it is built from. -/
def OffsetExpr.Right (bits : ℕ) (e : OffsetExpr) : Prop :=
  match e with
  | add start toChain => start.Right bits ∧ toChain.Right bits ∧ e.Proper bits
  | sub start toSubtract => start.Right bits ∧ toSubtract.Right bits ∧ e.Proper bits
  | neg o => o.Right bits ∧ e.Proper bits
  | scale _ o => o.Right bits ∧ e.Proper bits
  | stretch _ o => o.Right bits ∧ e.Proper bits
  | _ => e.Proper bits

/-- **The arguments which do no harm.** -/
def OffsetExpr.Safe (bits : ℕ) : OffsetExpr → Prop
  | distance raw => raw ≠ Int64.minValue
  | seconds _ => True
  | frames count fps => FramesSafe count fps
  | between origin target =>
    ¬ (origin = Int64.minValue ∧ target = 0 ∨ origin = 0 ∧ target = Int64.minValue)
  | add start toChain => start.Safe bits ∧ toChain.Safe bits
  | sub start toSubtract => start.Safe bits ∧ toSubtract.Safe bits
  | neg o => o.Safe bits
  | scale factor o => o.Safe bits ∧ ¬ 2 ^ 64 ∣ factor.toInt * (o.raw bits).toInt - 2 ^ 63
  | stretch factor o => o.Safe bits ∧ ¬ StretchFails (o.raw bits) factor

/-! ## Values which are computed and then limited -/

theorem abs_intCast_le_iff (x : ℤ) : |(x : ℚ)| ≤ maxTicks ↔ -maxTicks ≤ x ∧ x ≤ maxTicks := by
  rw [← abs_le]
  exact_mod_cast Iff.rfl

/-- A limited value is proper unless the computation ends at the smallest integer. -/
theorem proper_limited_iff {raw : gavl_time_t} {exact : ℤ} (hraw : raw.toInt = exact.bmod (2 ^ 64)) :
    (Within (symmetricLimit raw durationMax) ∧
      (|(exact : ℚ)| ≤ maxTicks → ((symmetricLimit raw durationMax).toInt : ℚ) = exact)) ↔
      ¬ 2 ^ 64 ∣ exact - 2 ^ 63 := by
  rw [← bmod_eq_smallest_iff, ← ne_eq, ← right_iff_of_wrapped hraw, abs_intCast_le_iff, and_imp, Int.cast_inj]

theorem proper_limited {raw : gavl_time_t} {exact : ℤ} (hraw : raw.toInt = exact.bmod (2 ^ 64))
    (hlow : -2 ^ 63 < exact) (hhigh : exact < 2 ^ 63) : Within (symmetricLimit raw durationMax) ∧
    (|(exact : ℚ)| ≤ maxTicks → ((symmetricLimit raw durationMax).toInt : ℚ) = exact) := by
  rw [proper_limited_iff hraw]
  omega

theorem toInt_ne_smallest_iff (raw : gavl_time_t) : raw.toInt ≠ -2 ^ 63 ↔ raw ≠ Int64.minValue := by
  have hmin : Int64.minValue.toInt = -2 ^ 63 := by decide
  rw [← hmin, ne_eq, Int64.toInt_inj]

/-! ## The ways to build an offset -/

variable {bits : ℕ}

theorem proper_distance_iff (raw : gavl_time_t) : (OffsetExpr.distance raw).Proper bits ↔ raw ≠ Int64.minValue := by
  have hraw : raw.toInt = raw.toInt.bmod (2 ^ 64) := (representable_toInt raw).bmod.symm
  rw [← toInt_ne_smallest_iff]
  refine (proper_limited_iff hraw).trans ?_
  rw [← bmod_eq_smallest_iff, ← hraw]

theorem proper_seconds (hbits : 64 ≤ bits) (deltaInSecs : Rational) : (OffsetExpr.seconds deltaInSecs).Proper bits :=
  right_seconds hbits deltaInSecs

theorem proper_frames_iff (count : Int64) (fps : FrameRate) :
    (OffsetExpr.frames count fps).Proper bits ↔ FramesSafe count fps :=
  right_frames_iff count fps

theorem proper_between_iff (origin target : gavl_time_t) : (OffsetExpr.between origin target).Proper bits ↔
    ¬ (origin = Int64.minValue ∧ target = 0 ∨ origin = 0 ∧ target = Int64.minValue) := by
  have hmin : ∀ x : Int64, x = Int64.minValue ↔ x.toInt = -2 ^ 63 := by
    intro x
    rw [← not_iff_not, ← ne_eq, ← toInt_ne_smallest_iff]
  have hzero : ∀ x : Int64, x = 0 ↔ x.toInt = 0 := by
    intro x
    rw [← Int64.toInt_inj, Int64.toInt_zero]
  rw [hmin, hmin, hzero, hzero, ← right_limitedDelta_iff]
  have hexact : (OffsetExpr.between origin target).exact bits = ((target.toInt - origin.toInt : ℤ) : ℚ) :=
    (Int.cast_sub _ _).symm
  unfold OffsetExpr.Proper OffsetExpr.Delivered
  rw [hexact, abs_intCast_le_iff, and_imp, Int.cast_inj]
  rfl

theorem proper_add {start toChain : OffsetExpr} (hstart : Within (start.raw bits))
    (htoChain : Within (toChain.raw bits)) : (OffsetExpr.add start toChain).Proper bits := by
  have hmax := maxTicks_eq
  rw [within_iff] at hstart htoChain
  have hproper := proper_limited (Int64.toInt_add (start.raw bits) (toChain.raw bits)) (by omega) (by omega)
  rw [Int.cast_add] at hproper
  exact hproper

theorem proper_sub {start toSubtract : OffsetExpr} (hstart : Within (start.raw bits))
    (htoSubtract : Within (toSubtract.raw bits)) : (OffsetExpr.sub start toSubtract).Proper bits := by
  have hmax := maxTicks_eq
  rw [within_iff] at hstart htoSubtract
  have hproper := proper_limited (Int64.toInt_sub (start.raw bits) (toSubtract.raw bits)) (by omega)
      (by omega)
  rw [Int.cast_sub] at hproper
  exact hproper

theorem proper_neg {o : OffsetExpr} (ho : Within (o.raw bits)) : (OffsetExpr.neg o).Proper bits := by
  have hmax := maxTicks_eq
  rw [within_iff] at ho
  have hraw : (o.raw bits * -1).toInt = (-(o.raw bits).toInt).bmod (2 ^ 64) := by
    rw [Int64.mul_neg, Int64.mul_one, Int64.toInt_neg]
  have hproper := proper_limited hraw (by omega) (by omega)
  exact hproper

theorem proper_scale_iff (factor : Int64) (o : OffsetExpr) :
    (OffsetExpr.scale factor o).Proper bits ↔ ¬ 2 ^ 64 ∣ factor.toInt * (o.raw bits).toInt - 2 ^ 63 := by
  have hraw : (o.raw bits * factor).toInt = (factor.toInt * (o.raw bits).toInt).bmod (2 ^ 64) := by
    rw [Int64.toInt_mul, mul_comm]
  have hproper := proper_limited_iff hraw
  rw [Int.cast_mul] at hproper
  exact hproper

theorem proper_stretch_iff (factor : Rational) (o : OffsetExpr) :
    (OffsetExpr.stretch factor o).Proper bits ↔ ¬ StretchFails (o.raw bits) factor :=
  right_stretch_iff (o.raw bits) factor

theorem OffsetExpr.Right.within {e : OffsetExpr} (h : e.Right bits) : Within (e.raw bits) := by
  cases e with
  | distance raw => exact h.1
  | seconds deltaInSecs => exact h.1
  | frames count fps => exact h.1
  | between origin target => exact h.1
  | add start toChain => exact h.2.2.1
  | sub start toSubtract => exact h.2.2.1
  | neg o => exact h.2.1
  | scale factor o => exact h.2.1
  | stretch factor o => exact h.2.1

/-- **Offsets are right** just when they are built from arguments which do no harm: by induction
over the way the offset is built, where the operands are within the limits already. -/
theorem right_iff_safe (hbits : 64 ≤ bits) (e : OffsetExpr) : e.Right bits ↔ e.Safe bits := by
  induction e with
  | distance raw => exact proper_distance_iff raw
  | seconds deltaInSecs => exact ⟨fun _ => trivial, fun _ => proper_seconds hbits deltaInSecs⟩
  | frames count fps => exact proper_frames_iff count fps
  | between origin target => exact proper_between_iff origin target
  | add start toChain ihStart ihToChain =>
    unfold OffsetExpr.Right OffsetExpr.Safe
    rw [← ihStart, ← ihToChain]
    exact ⟨fun h => ⟨h.1, h.2.1⟩, fun h => ⟨h.1, h.2, proper_add h.1.within h.2.within⟩⟩
  | sub start toSubtract ihStart ihToSubtract =>
    unfold OffsetExpr.Right OffsetExpr.Safe
    rw [← ihStart, ← ihToSubtract]
    exact ⟨fun h => ⟨h.1, h.2.1⟩, fun h => ⟨h.1, h.2, proper_sub h.1.within h.2.within⟩⟩
  | neg o ih =>
    unfold OffsetExpr.Right OffsetExpr.Safe
    rw [← ih]
    exact ⟨fun h => h.1, fun h => ⟨h, proper_neg h.within⟩⟩
  | scale factor o ih =>
    unfold OffsetExpr.Right OffsetExpr.Safe
    rw [← ih, proper_scale_iff]
  | stretch factor o ih =>
    unfold OffsetExpr.Right OffsetExpr.Safe
    rw [← ih, proper_stretch_iff]

/-! ## Times -/

/-- A time value built from a raw value, or an offset with the duration built from it. -/
inductive Built
  | time (raw : gavl_time_t)
  | offset (e : OffsetExpr)

/-- **The limits**: times are within theirs and are the raw value when that is within the limits. -/
def Built.Right (bits : ℕ) : Built → Prop
  | time raw =>
    (timeMin.toInt ≤ (limitedTime raw).toInt ∧ (limitedTime raw).toInt ≤ timeMax.toInt) ∧
      (timeMin.toInt ≤ raw.toInt → raw.toInt ≤ timeMax.toInt → limitedTime raw = raw)
  | offset e => e.Right bits

/-- **The arguments which do no harm.** -/
def Built.Safe (bits : ℕ) : Built → Prop
  | time raw => raw ≠ Int64.minValue
  | offset e => e.Safe bits

theorem right_time_iff (raw : gavl_time_t) : (Built.time raw).Right bits ↔ raw ≠ Int64.minValue := by
  have hmin : timeMin.toInt = -307445734561825860 := by decide
  have hlimited := @toInt_symmetricLimit raw timeMax (by decide)
  rw [← limitedTime] at hlimited
  rw [← toInt_ne_smallest_iff, Built.Right, ← Int64.toInt_inj, hlimited, toInt_timeMax]
  split_ifs <;> omega

/-- **The limits are kept** just for the arguments which do no harm. -/
theorem limits_kept_iff (hbits : 64 ≤ bits) (b : Built) : b.Right bits ↔ b.Safe bits := by
  cases b with
  | time raw => exact right_time_iff raw
  | offset e => exact right_iff_safe hbits e

/-! ## One frame per second -/

/-- `FrameRate::STEP` -/
def FrameRate.STEP : FrameRate where
  numerator := 1
  denominator := 1
  numerator_pos := by decide
  denominator_pos := by decide
  reduced := by decide

/-- Some frames and some seconds. -/
def framesAndSeconds : OffsetExpr := .add (.frames 10 FrameRate.STEP) (.seconds ⟨1, 2, by decide, by decide⟩)

theorem safe_framesAndSeconds : framesAndSeconds.Safe 64 := by
  refine ⟨Or.inl ⟨?_, by decide⟩, trivial⟩
  unfold FramesFit
  decide

theorem limits_kept_doubled : (Built.offset (.scale 2 framesAndSeconds)).Right 64 := by
  refine (limits_kept_iff (le_refl 64) _).mpr ⟨safe_framesAndSeconds, ?_⟩
  have hwithin := ((right_iff_safe (le_refl 64) _).mpr safe_framesAndSeconds).within
  have hmax := maxTicks_eq
  have htwo : (2 : Int64).toInt = 2 := by decide
  rw [within_iff] at hwithin
  rw [htwo]
  omega

/-- **Frames are not limited**: even without a wrap, the offset exceeds the limits. -/
theorem not_right_frames : ¬ (Built.offset (.frames 700000000000 FrameRate.STEP)).Right 64 := by
  intro hright
  have hwithin : Within (offsetFrames 700000000000 FrameRate.STEP) := hright.1
  exact absurd hwithin.2 (by decide)

end Lumiera.Lib.RawTime
