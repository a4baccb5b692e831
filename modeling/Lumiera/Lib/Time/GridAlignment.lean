import Lumiera.Lib.Time.Mutation

/-! # Alignment to a frame grid (`lib/time/quantiser.cpp`)

Grid points and times are converted forth and back. Both conversions agree on all the grid points
which are within the range of times; the grid point below the smallest time is the only other one
which a time can be aligned to, and there the result is limited. -/

namespace Lumiera.Lib.RawTime

/-- `lumiera_quantise_time` -/
def quantiseTime (time origin grid : gavl_time_t) : gavl_time_t :=
  let count := floordiv (time - origin) grid
  count * grid

/-- The start of the grid interval, relative to the origin. -/
def FixedFrameQuantiser.gridLocal (grid : FixedFrameQuantiser) (rawTime : gavl_time_t) : gavl_time_t :=
    limitedTime (quantiseTime rawTime grid.origin_ grid.raster_)

/-- The limits of time, as a range of integers. -/
def InTicks (x : ℤ) : Prop := -307445734561825860 ≤ x ∧ x ≤ 307445734561825860

namespace FixedFrameQuantiser

variable {grid : FixedFrameQuantiser} {t : gavl_time_t}

/-! ## The grid point of a time -/

/-- The grid point is the number of the interval which contains the time. -/
theorem gridPoint_eq_iff (ht : InTimeRange t) {n : ℤ} :
    (grid.gridPoint t).toInt = n ↔ grid.startOf n ≤ t.toInt ∧ t.toInt < grid.startOf (n + 1) := by
  obtain ⟨hlow, hhigh⟩ := @gridPoint_spec grid _ ht
  constructor
  · rintro rfl
    exact ⟨hlow, hhigh⟩
  · rintro ⟨hlow', hhigh'⟩
    have hle : (grid.gridPoint t).toInt < n + 1 := grid.startOf_lt_iff.mp (hlow.trans_lt hhigh')
    have hge : n < (grid.gridPoint t).toInt + 1 := grid.startOf_lt_iff.mp (hlow'.trans_lt hhigh)
    omega

theorem gridPoint_mono {s : gavl_time_t} (hs : InTimeRange s) (ht : InTimeRange t) (hle : s ≤ t) :
    grid.gridPoint s ≤ grid.gridPoint t := by
  rw [Int64.le_iff_toInt_le] at hle ⊢
  have hlow := (@gridPoint_spec grid _ hs).1
  have hhigh := (@gridPoint_spec grid _ ht).2
  have hlt := grid.startOf_lt_iff.mp ((hlow.trans hle).trans_lt hhigh)
  omega

theorem near_gridPoint (ht : InTimeRange t) : grid.Near (grid.gridPoint t).toInt := by
  obtain ⟨hlow, hhigh⟩ := @gridPoint_spec grid _ ht
  have hraster := grid.raster_toInt_le
  rw [inTimeRange_iff] at ht
  rw [startOf_succ] at hhigh
  exact ⟨by omega, by omega⟩

theorem near_of_inTicks {n : ℤ} (hn : InTicks (grid.startOf n)) : grid.Near n := by
  obtain ⟨hlow, hhigh⟩ := hn
  exact ⟨by omega, by omega⟩

theorem toInt_gridPoint_add (ht : InTimeRange t) (steps : Int32) :
    (grid.gridPoint t + steps.toInt64).toInt = (grid.gridPoint t).toInt + steps.toInt := by
  have hpos := grid.raster_toInt_pos
  have hlow := steps.le_toInt
  have hhigh := steps.toInt_lt
  obtain ⟨hproductLow, hproductHigh⟩ := (@near_gridPoint grid _ ht).product
  -- the spacing is at least one tick, thus numbers are bounded as the product is
  have hbelow : -2 ^ 62 - 307445734561825860 ≤ (grid.gridPoint t).toInt := by nlinarith
  have habove : (grid.gridPoint t).toInt ≤ 2 ^ 62 + 307445734561825860 := by nlinarith
  rw [Int64.toInt_add, Int32.toInt_toInt64]
  exact Representable.bmod ⟨by omega, by omega⟩

/-! ## The time of a grid point -/

variable {n : Int64}

theorem toInt_timeOf_of_near (hn : grid.Near n.toInt) :
    (grid.timeOf n).toInt = max (-307445734561825860) (min 307445734561825860 (grid.startOf n.toInt)) := by
  have htime := toInt_timeOf hn
  rwa [Int64.ofInt_toInt] at htime

theorem toInt_timeOf_of_inTicks (hn : InTicks (grid.startOf n.toInt)) :
    (grid.timeOf n).toInt = grid.startOf n.toInt := by
  rw [toInt_timeOf_of_near (near_of_inTicks hn)]
  obtain ⟨hlow, hhigh⟩ := hn
  omega

theorem inTimeRange_timeOf (hn : grid.Near n.toInt) : InTimeRange (grid.timeOf n) := by
  rw [inTimeRange_iff, toInt_timeOf_of_near hn]
  omega

/-- The conversion to time and back returns the grid point. -/
theorem gridPoint_timeOf (hn : InTicks (grid.startOf n.toInt)) : grid.gridPoint (grid.timeOf n) = n := by
  have hpos := grid.raster_toInt_pos
  have hrange := inTimeRange_timeOf (near_of_inTicks hn)
  rw [← Int64.toInt_inj, gridPoint_eq_iff hrange, toInt_timeOf_of_inTicks hn, startOf_succ]
  omega

/-! ## Aligned times -/

theorem toInt_materialise (ht : InTimeRange t) :
    (grid.materialise t).toInt = max (-307445734561825860) (grid.startOf (grid.gridPoint t).toInt) := by
  have hlow := (@gridPoint_spec grid _ ht).1
  rw [materialise, toInt_timeOf_of_near (near_gridPoint ht)]
  rw [inTimeRange_iff] at ht
  omega

theorem inTimeRange_materialise (ht : InTimeRange t) : InTimeRange (grid.materialise t) :=
    inTimeRange_timeOf (near_gridPoint ht)

/-- Less than a grid interval is lost. -/
theorem materialise_bounds (ht : InTimeRange t) : (grid.materialise t).toInt ≤ t.toInt ∧
    t.toInt < (grid.materialise t).toInt + grid.raster_.toInt := by
  obtain ⟨hlow, hhigh⟩ := @gridPoint_spec grid _ ht
  rw [startOf_succ] at hhigh
  rw [toInt_materialise ht]
  rw [inTimeRange_iff] at ht
  omega

/-- An aligned time is not changed any more. -/
theorem materialise_idem (ht : InTimeRange t) : grid.materialise (grid.materialise t) = grid.materialise t := by
  have hvalue := @toInt_materialise grid _ ht
  have haligned := @inTimeRange_materialise grid _ ht
  have hhigh := (@gridPoint_spec grid _ ht).1
  rw [inTimeRange_iff] at ht
  rcases le_or_gt (-307445734561825860) (grid.startOf (grid.gridPoint t).toInt) with hin | hout
  · -- a grid point within the range
    have hback := @gridPoint_timeOf grid (grid.gridPoint t) ⟨hin, by omega⟩
    rw [materialise, materialise, hback]
  · -- the smallest time stays as it is, since its grid point is not above it
    have hbelow := (@gridPoint_spec grid _ haligned).1
    rw [← Int64.toInt_inj, toInt_materialise haligned]
    omega

theorem toInt_gridLocal (ht : InTimeRange t) : (grid.gridLocal t).toInt = max (-307445734561825860)
    (min 307445734561825860 (grid.startOf (grid.gridPoint t).toInt - grid.origin_.toInt)) := by
  have hrelative : grid.startOf (grid.gridPoint t).toInt - grid.origin_.toInt =
      (grid.gridPoint t).toInt * grid.raster_.toInt := by
    unfold startOf
    omega
  obtain ⟨hlow, hhigh⟩ := (@near_gridPoint grid _ ht).product
  have hmul : (quantiseTime t grid.origin_ grid.raster_).toInt =
      (grid.gridPoint t).toInt * grid.raster_.toInt := by
    rw [quantiseTime, Int64.toInt_mul]
    exact Representable.bmod ⟨by rw [← gridPoint]; omega, by rw [← gridPoint]; omega⟩
  rw [gridLocal, limitedTime, toInt_symmetricLimit _ (by decide), toInt_timeMax]
  split_ifs <;> omega

theorem toInt_gridLocal_of_inTicks (ht : InTimeRange t)
    (hin : InTicks (grid.startOf (grid.gridPoint t).toInt))
    (hlocal : InTicks (grid.startOf (grid.gridPoint t).toInt - grid.origin_.toInt)) :
    (grid.gridLocal t).toInt = (grid.materialise t).toInt - grid.origin_.toInt := by
  rw [toInt_gridLocal ht, toInt_materialise ht]
  obtain ⟨hlow, hhigh⟩ := hin
  obtain ⟨hlow', hhigh'⟩ := hlocal
  omega

/-! ## Steps on the grid -/

variable {bits : ℕ}

theorem nudge_raw (qu : QuTime) (steps : Int32) :
    ((Mutation.nudge steps).change bits .quTime qu).1 =
      { qu with raw := qu.quantiser_.timeOf (qu.quantiser_.gridPoint qu.raw + steps.toInt64) } := rfl

/-- Nudging by some steps leads to a time on the grid, so many grid points apart. -/
theorem materialise_nudged (ht : InTimeRange t) (steps : Int32)
    (hin : InTicks (grid.startOf ((grid.gridPoint t).toInt + steps.toInt))) :
    grid.gridPoint (grid.timeOf (grid.gridPoint t + steps.toInt64)) = grid.gridPoint t + steps.toInt64 := by
  apply gridPoint_timeOf
  rwa [toInt_gridPoint_add ht]

/-- Nudging back leads to the aligned time, even when this one is limited. -/
theorem nudged_back (ht : InTimeRange t) {steps : Int32} (hne : steps ≠ Int32.minValue)
    (hin : InTicks (grid.startOf ((grid.gridPoint t).toInt + steps.toInt))) :
    grid.timeOf (grid.gridPoint (grid.timeOf (grid.gridPoint t + steps.toInt64)) + (-steps).toInt64) =
      grid.materialise t := by
  have hneg : (-steps).toInt = -steps.toInt := by
    have hlow := steps.le_toInt
    have hhigh := steps.toInt_lt
    have hmin : steps.toInt ≠ -2 ^ 31 := fun heq => hne (Int32.toInt_inj.mp heq)
    rw [Int32.toInt_neg, Int.bmod_def]
    omega
  have hreturn : grid.gridPoint t + steps.toInt64 + (-steps).toInt64 = grid.gridPoint t := by
    have hzero : steps.toInt64 + (-steps).toInt64 = 0 := by
      rw [← Int64.toInt_inj, Int64.toInt_add, Int32.toInt_toInt64, Int32.toInt_toInt64, hneg,
        Int.add_right_neg]
      rfl
    rw [Int64.add_assoc, hzero, Int64.add_zero]
  rw [materialise_nudged ht steps hin, hreturn, materialise]

end FixedFrameQuantiser

/-! ## What is expected from a grid -/

/-- **A grid is aligned**: grid points are monotone; aligned times are at most an interval below the
time, and stay as they are; the local time is relative to the origin, within the limits of times;
grid points are found again; and a number of steps can be taken, and taken back. -/
structure FixedFrameQuantiser.Aligned (grid : FixedFrameQuantiser) : Prop where
  mono : ∀ s t, InTimeRange s → InTimeRange t → s ≤ t → grid.gridPoint s ≤ grid.gridPoint t
  below : ∀ t, InTimeRange t → InTimeRange (grid.materialise t) ∧ grid.materialise t ≤ t ∧
    t.toInt < (grid.materialise t).toInt + grid.raster_.toInt
  idem : ∀ t, InTimeRange t → grid.materialise (grid.materialise t) = grid.materialise t
  local_limited : ∀ t, InTimeRange t →
    (grid.gridLocal t).toInt = max timeMin.toInt (min timeMax.toInt
      (grid.startOf (grid.gridPoint t).toInt - grid.origin_.toInt))
  local_eq : ∀ t, InTimeRange t → InTicks (grid.startOf (grid.gridPoint t).toInt) →
    InTicks (grid.startOf (grid.gridPoint t).toInt - grid.origin_.toInt) →
    (grid.gridLocal t).toInt = (grid.materialise t).toInt - grid.origin_.toInt
  found : ∀ n : Int64, Representable (n.toInt * grid.raster_.toInt) →
    InTicks (grid.startOf n.toInt) → grid.gridPoint (grid.timeOf n) = n
  nudged : ∀ bits t (k : Int32), InTimeRange t →
    InTicks (grid.startOf ((grid.gridPoint t).toInt + k.toInt)) →
    let nudged := ((Mutation.nudge k).change bits .quTime ⟨t, grid⟩).1
    grid.materialise nudged.raw = grid.timeOf (grid.gridPoint t + k.toInt64) ∧
      (grid.timeOf (grid.gridPoint t + k.toInt64)).toInt =
        grid.startOf ((grid.gridPoint t).toInt + k.toInt) ∧
      (k ≠ Int32.minValue →
        ((Mutation.nudge (-k)).change bits .quTime nudged).1.raw = grid.materialise t)

/-- **Every grid is aligned.** -/
theorem FixedFrameQuantiser.aligned (grid : FixedFrameQuantiser) : grid.Aligned where
  mono _ _ hs ht hle := gridPoint_mono hs ht hle
  below t ht := by
    obtain ⟨hle, hlt⟩ := @materialise_bounds grid _ ht
    exact ⟨inTimeRange_materialise ht, Int64.le_iff_toInt_le.mpr hle, hlt⟩
  idem _ ht := materialise_idem ht
  local_limited _ ht := toInt_gridLocal ht
  local_eq _ ht hin hlocal := toInt_gridLocal_of_inTicks ht hin hlocal
  found _ _ hn := gridPoint_timeOf hn
  nudged bits t k ht hin := by
    have hstart : InTicks (grid.startOf (grid.gridPoint t + k.toInt64).toInt) := by
      rwa [toInt_gridPoint_add ht]
    refine ⟨?_, ?_, fun hne => ?_⟩
    · rw [nudge_raw]
      rw [materialise, materialise_nudged ht k hin]
    · rw [toInt_timeOf_of_inTicks hstart, toInt_gridPoint_add ht]
    · rw [nudge_raw, nudge_raw]
      exact nudged_back ht hne hin

/-- A grid of single ticks, starting at the smallest time. -/
def ticksFromMin : FixedFrameQuantiser where
  origin_ := timeMin
  raster_ := 1
  origin_range := by decide
  raster_pos := by decide
  raster_le := by decide

/-- The local time is limited like any other time: far from the origin, it is not the distance. -/
theorem not_gridLocal_eq : ¬ ∀ (grid : FixedFrameQuantiser) (t : gavl_time_t), InTimeRange t →
    (grid.gridLocal t).toInt = (grid.materialise t).toInt - grid.origin_.toInt := by
  intro h
  exact absurd (h ticksFromMin timeMax (by decide)) (by decide +kernel)

end Lumiera.Lib.RawTime
