import Lumiera.Lib.Time.TimeLimitsFrames

/-! # Frame numbers by frame rate (`calculate_quantisation`)

The number of the frame is computed directly, as a quotient of a product, when a guard finds that
this is safe. The guard looks at the time only, yet the product is one of the distance to the
origin. In all other cases the frame duration is computed first, truncated to whole ticks; the
divisor of the frame rate has no part in it. -/

namespace Lumiera.Lib.RawTime

/-- `floordiv`, with the failure of a division by zero. -/
def checkedFloordiv (num den : Int64) : Option Int64 := if den = 0 then none else some (floordiv num den)

/-- A 32-bit number, as operand of a 64-bit calculation. -/
def widened (x : UInt32) : Int64 := x.toUInt64.toInt64

/-- `calculate_quantisation`, on a grid of fixed spacing. -/
def calculateQuantisation (time origin grid : gavl_time_t) : Option Int64 :=
    checkedFloordiv (time - origin) grid

/-- The protection against numeric overflow. -/
def safeToMultiply (time : gavl_time_t) (framerate framerateDivisor : UInt32) : Bool :=
  let limitNum := Int64.maxValue / widened framerate
  let limitDen := Int64.maxValue / widened framerateDivisor
  abs time < limitNum && SCALE < limitDen

/-- `calculate_quantisation`, by frame rate. -/
def calculateQuantisationFps (time origin : gavl_time_t) (framerate framerateDivisor : UInt32) :
    Option Int64 :=
  if safeToMultiply time framerate framerateDivisor then
    checkedFloordiv ((time - origin) * widened framerate) (SCALE * widened framerateDivisor)
  else
    let frameDuration := SCALE / widened framerate
    calculateQuantisation time origin frameDuration

/-! ## Times and rates -/

/-- Within the range of times, from `Time::MIN` to `Time::MAX`. -/
def InTimeRange (time : gavl_time_t) : Prop := timeMin ≤ time ∧ time ≤ timeMax

instance (time : gavl_time_t) : Decidable (InTimeRange time) := inferInstanceAs (Decidable (_ ∧ _))

theorem inTimeRange_iff (time : gavl_time_t) :
    InTimeRange time ↔ -307445734561825860 ≤ time.toInt ∧ time.toInt ≤ 307445734561825860 := by
  have hmin : timeMin.toInt = -307445734561825860 := rfl
  rw [InTimeRange, Int64.le_iff_toInt_le, Int64.le_iff_toInt_le, hmin, toInt_timeMax]

variable {time time' origin : gavl_time_t} {num den : UInt32}

theorem toInt_distance (ht : InTimeRange time) (ho : InTimeRange origin) :
    (time - origin).toInt = time.toInt - origin.toInt := by
  rw [inTimeRange_iff] at ht ho
  rw [Int64.toInt_sub]
  exact Representable.bmod ⟨by omega, by omega⟩

theorem toInt_widened (x : UInt32) : (widened x).toInt = x.toNat := by
  have hlt := x.toNat_lt
  rw [widened, toInt_toInt64_of_lt (by rw [UInt32.toNat_toUInt64]; omega), UInt32.toNat_toUInt64]

theorem toInt_div_widened {a : Int64} (ha : 0 ≤ a.toInt) (hnum : 0 < num.toNat) :
    (a / widened num).toInt = a.toInt / num.toNat := by
  have hpos : (0 : ℤ) < num.toNat := by exact_mod_cast hnum
  rw [Int64.toInt_div, toInt_widened, (representable_tdiv (representable_toInt a) hpos).bmod,
    Int.tdiv_eq_ediv_of_nonneg ha]

theorem toInt_abs (ht : InTimeRange time) : (abs time).toInt = |time.toInt| := by
  rw [inTimeRange_iff] at ht
  unfold abs
  simp only [Int64.lt_iff_toInt_lt]
  split_ifs with hneg
  · rw [abs_of_neg hneg, Int64.toInt_neg]
    exact Representable.bmod ⟨by omega, by omega⟩
  · rw [abs_of_nonneg (not_lt.mp hneg)]

/-- What the guard looks at: the magnitude of the time, compared with the rate. -/
theorem safeToMultiply_iff (ht : InTimeRange time) (hnum : 0 < num.toNat) (hden : 0 < den.toNat) :
    safeToMultiply time num den = true ↔ |time.toInt| < (2 ^ 63 - 1) / (num.toNat : ℤ) := by
  have hmax : Int64.maxValue.toInt = 2 ^ 63 - 1 := rfl
  have hdenLt := den.toNat_lt
  -- a divisor of 32 bits leaves enough room for the scale
  have hscale : SCALE < Int64.maxValue / widened den := by
    rw [Int64.lt_iff_toInt_lt, toInt_div_widened (by decide) hden, toInt_SCALE, hmax,
      Int.lt_iff_add_one_le, Int.le_ediv_iff_mul_le (by exact_mod_cast hden)]
    omega
  rw [safeToMultiply, Bool.and_eq_true, decide_eq_true_iff, decide_eq_true_iff, and_iff_left hscale,
    Int64.lt_iff_toInt_lt, toInt_abs ht, toInt_div_widened (by decide) hnum, hmax]

/-! ## What is computed -/

theorem checkedFloordiv_eq_none_iff {num den : Int64} : checkedFloordiv num den = none ↔ den = 0 := by
  unfold checkedFloordiv
  split_ifs with h <;> simp [h]

theorem checkedFloordiv_of_pos (num : Int64) {den : Int64} (hpos : 0 < den.toInt) :
    ∃ q : Int64, checkedFloordiv num den = some q ∧ q.toInt = num.toInt / den.toInt := by
  have hne : den ≠ 0 := by
    rintro rfl
    exact absurd hpos (by decide)
  exact ⟨floordiv num den, if_neg hne, toInt_floordiv num hpos⟩

theorem quantised_direct (ht : InTimeRange time) (ho : InTimeRange origin) (hden : 0 < den.toNat)
    (hsafe : safeToMultiply time num den = true) :
    ∃ q : Int64, calculateQuantisationFps time origin num den = some q ∧
      q.toInt = ((time.toInt - origin.toInt) * num.toNat).bmod (2 ^ 64) / (1000000 * den.toNat) := by
  have hdenLt := den.toNat_lt
  have hscale : (SCALE * widened den).toInt = 1000000 * den.toNat := by
    rw [Int64.toInt_mul, toInt_SCALE, toInt_widened]
    exact Representable.bmod ⟨by omega, by omega⟩
  obtain ⟨q, hq, hfloor⟩ := checkedFloordiv_of_pos ((time - origin) * widened num)
    (show 0 < (SCALE * widened den).toInt by rw [hscale]; omega)
  refine ⟨q, ?_, ?_⟩
  · rw [calculateQuantisationFps, if_pos hsafe, hq]
  · rw [hfloor, hscale, Int64.toInt_mul, toInt_distance ht ho, toInt_widened]

theorem quantised_fallback (ht : InTimeRange time) (ho : InTimeRange origin) (hnum : 0 < num.toNat)
    (hsafe : safeToMultiply time num den = false) :
    (num.toNat > 1000000 → calculateQuantisationFps time origin num den = none) ∧
    (num.toNat ≤ 1000000 → ∃ q : Int64, calculateQuantisationFps time origin num den = some q ∧
      q.toInt = (time.toInt - origin.toInt) / (1000000 / num.toNat)) := by
  have hduration : (SCALE / widened num).toInt = 1000000 / num.toNat := by
    rw [toInt_div_widened (by decide) hnum, toInt_SCALE]
  have hunfold : calculateQuantisationFps time origin num den =
      checkedFloordiv (time - origin) (SCALE / widened num) := by
    rw [calculateQuantisationFps, if_neg (by rw [hsafe]; decide), calculateQuantisation]
  constructor
  · intro hhigh
    have hzero : (1000000 : ℤ) / num.toNat = 0 := Int.ediv_eq_zero_of_lt (by decide) (by omega)
    rw [hunfold, checkedFloordiv_eq_none_iff, ← Int64.toInt_inj, hduration, hzero]
    rfl
  · intro hlow
    have hpos : 0 < (SCALE / widened num).toInt := by
      rw [hduration, Int.lt_iff_add_one_le, Int.le_ediv_iff_mul_le (by exact_mod_cast hnum)]
      omega
    obtain ⟨q, hq, hfloor⟩ := checkedFloordiv_of_pos (time - origin) hpos
    exact ⟨q, hunfold.trans hq, by rw [hfloor, hduration, toInt_distance ht ho]⟩

/-! ## What is expected -/

/-- The frame duration, truncated to whole ticks but at least one. -/
def frameTicks (num den : ℕ) : ℤ := max 1 (1000000 * den / num)

/-- **The number of the frame**: exact with the direct calculation, and otherwise by the frame duration. -/
def frameNrAt (time origin : gavl_time_t) (num den : UInt32) : ℤ :=
  if safeToMultiply time num den then (time.toInt - origin.toInt) * num.toNat / (1000000 * den.toNat)
  else (time.toInt - origin.toInt) / frameTicks num.toNat den.toNat

/-- **The quantisation is right**: there is no division by zero, and the result is the number of the frame. -/
def QuantisedRight (time origin : gavl_time_t) (num den : UInt32) : Prop :=
  ∃ frameNr : Int64, calculateQuantisationFps time origin num den = some frameNr ∧
    frameNr.toInt = frameNrAt time origin num den

/-- **The operands fit**: the product of the distance to the origin does not wrap; or else a second
has no more frames than ticks, and the frame rate is an integer or the time is in one of the two
frames around the origin. -/
def OperandsFit (time origin : gavl_time_t) (num den : UInt32) : Prop :=
  if safeToMultiply time num den then Representable ((time.toInt - origin.toInt) * num.toNat)
  else num.toNat ≤ 1000000 ∧ (den.toNat = 1 ∨
    -(1000000 / num.toNat : ℤ) ≤ time.toInt - origin.toInt ∧ time.toInt - origin.toInt < 1000000 / num.toNat)

theorem bmod_ediv_eq_iff {x d : ℤ} (hpos : 0 < d) (hlt : d < 2 ^ 64) :
    x.bmod (2 ^ 64) / d = x / d ↔ Representable x := by
  constructor
  · intro heq
    obtain ⟨k, hk⟩ := exists_bmod_eq x
    obtain ⟨hlow, hhigh⟩ := representable_bmod x
    -- the quotients are at least one apart when a multiple of the range is taken away
    have hzero : k = 0 := by
      have hfloor := Int.ediv_mul_le x hpos.ne'
      have hfloor' := Int.lt_ediv_add_one_mul_self x hpos
      have hwrapped := Int.ediv_mul_le (x.bmod (2 ^ 64)) hpos.ne'
      have hwrapped' := Int.lt_ediv_add_one_mul_self (x.bmod (2 ^ 64)) hpos
      rw [heq] at hwrapped hwrapped'
      rw [add_mul] at hfloor' hwrapped'
      omega
    exact ⟨by omega, by omega⟩
  · intro h
    rw [h.bmod]

theorem ediv_eq_ediv_iff {x d e : ℤ} (hpos : 0 < d) (hle : 2 * d ≤ e) : x / d = x / e ↔ -d ≤ x ∧ x < d := by
  have hfloor := Int.ediv_mul_le x hpos.ne'
  have hfloor' := Int.lt_ediv_add_one_mul_self x hpos
  have heFloor := Int.ediv_mul_le x (show e ≠ 0 by omega)
  have heFloor' := Int.lt_ediv_add_one_mul_self x (show 0 < e by omega)
  constructor
  · intro heq
    have hlow : -1 ≤ x / d := by
      by_contra hlt
      nlinarith
    have hhigh : x / d < 1 := by
      by_contra hge
      nlinarith
    constructor <;> nlinarith
  · rintro ⟨hlow, hhigh⟩
    have hsame : ∀ e' : ℤ, d ≤ e' → x / e' = if x < 0 then -1 else 0 := by
      intro e' he'
      split_ifs with hneg
      · rw [Int.ediv_eq_iff_of_pos (by omega)]
        omega
      · exact Int.ediv_eq_zero_of_lt (by omega) (by omega)
    rw [hsame d le_rfl, hsame e (by omega)]

theorem frameTicks_one {num : ℕ} (hpos : 0 < num) (hle : num ≤ 1000000) : frameTicks num 1 = 1000000 / num := by
  have hone : (1 : ℤ) ≤ 1000000 / num := by
    rw [Int.le_ediv_iff_mul_le (by exact_mod_cast hpos)]
    omega
  rw [frameTicks, Nat.cast_one, mul_one, max_eq_right hone]

theorem two_mul_le_frameTicks {num den : ℕ} (hpos : 0 < num) (hden : 2 ≤ den) :
    2 * (1000000 / num : ℤ) ≤ frameTicks num den := by
  have hfloor := Int.ediv_mul_le (1000000 : ℤ) (show (num : ℤ) ≠ 0 by omega)
  apply le_max_of_le_right
  rw [Int.le_ediv_iff_mul_le (by exact_mod_cast hpos)]
  linarith

/-- The rule for both branches. -/
theorem quantisedRight_iff_operandsFit (ht : InTimeRange time) (ho : InTimeRange origin) (hnum : 0 < num.toNat)
    (hden : 0 < den.toNat) : QuantisedRight time origin num den ↔ OperandsFit time origin num den := by
  have hdenLt := den.toNat_lt
  have hresult : ∀ {q x : Int64} {r : ℤ}, calculateQuantisationFps time origin num den = some q →
      q.toInt = r →
      (QuantisedRight time origin num den ↔ r = frameNrAt time origin num den) := by
    intro q _ r hq hr
    rw [QuantisedRight, hq]
    constructor
    · rintro ⟨_, ⟨⟩, heq⟩
      rw [← hr, heq]
    · intro heq
      exact ⟨q, rfl, hr.trans heq⟩
  cases hsafe : safeToMultiply time num den with
  | true =>
    obtain ⟨q, hq, hfloor⟩ := quantised_direct ht ho hden hsafe
    rw [hresult (x := q) hq hfloor, frameNrAt, OperandsFit, if_pos hsafe, if_pos hsafe]
    exact bmod_ediv_eq_iff (by omega) (by omega)
  | false =>
    have hneg : ¬ safeToMultiply time num den = true := by
      rw [hsafe]
      decide
    obtain ⟨hfails, hreturns⟩ := quantised_fallback ht ho hnum hsafe
    rw [OperandsFit, if_neg hneg]
    by_cases hlow : num.toNat ≤ 1000000
    · obtain ⟨q, hq, hfloor⟩ := hreturns hlow
      rw [hresult (x := q) hq hfloor, frameNrAt, if_neg hneg, and_iff_right hlow]
      rcases Nat.lt_or_ge 1 den.toNat with hmore | hone
      · have hduration : (0 : ℤ) < 1000000 / num.toNat := by
          rw [Int.lt_iff_add_one_le, Int.le_ediv_iff_mul_le (by exact_mod_cast hnum)]
          omega
        rw [ediv_eq_ediv_iff hduration (two_mul_le_frameTicks hnum hmore), or_iff_right (by omega)]
      · have heq : den.toNat = 1 := by omega
        rw [heq, frameTicks_one hnum hlow]
        exact iff_of_true rfl (Or.inl rfl)
    · -- the frame duration is truncated to nothing
      refine iff_of_false ?_ fun h => hlow h.1
      rintro ⟨q, hq, -⟩
      rw [hfails (by omega)] at hq
      cases hq

theorem frameNrAt_mono (hden : 0 < den.toNat) (hle : time.toInt ≤ time'.toInt)
    (hbranch : safeToMultiply time num den = safeToMultiply time' num den) :
    frameNrAt time origin num den ≤ frameNrAt time' origin num den := by
  unfold frameNrAt
  rw [hbranch]
  split_ifs
  · apply Int.ediv_le_ediv (by omega)
    exact Int.mul_le_mul_of_nonneg_right (by omega) (by omega)
  · apply Int.ediv_le_ediv _ (by omega)
    exact lt_of_lt_of_le (by decide) (le_max_left _ _)

/-- **When frames are quantised right**: exactly when the operands fit; and then the frame number is
monotone in time on either branch. -/
theorem quantisedRight_iff (ht : InTimeRange time) (ho : InTimeRange origin) (hnum : 0 < num.toNat)
    (hden : 0 < den.toNat) :
    (QuantisedRight time origin num den ↔ OperandsFit time origin num den) ∧
      ∀ time', InTimeRange time' → time ≤ time' → safeToMultiply time num den = safeToMultiply time' num den →
        OperandsFit time origin num den → OperandsFit time' origin num den →
        ∃ n n', calculateQuantisationFps time origin num den = some n ∧
          calculateQuantisationFps time' origin num den = some n' ∧ n ≤ n' := by
  refine ⟨quantisedRight_iff_operandsFit ht ho hnum hden, fun time' ht' hle hbranch hfit hfit' => ?_⟩
  obtain ⟨n, hn, hnr⟩ := (quantisedRight_iff_operandsFit ht ho hnum hden).mpr hfit
  obtain ⟨n', hn', hnr'⟩ := (quantisedRight_iff_operandsFit ht' ho hnum hden).mpr hfit'
  refine ⟨n, n', hn, hn', ?_⟩
  rw [Int64.le_iff_toInt_le, hnr, hnr']
  exact frameNrAt_mono hden (Int64.le_iff_toInt_le.mp hle) hbranch

/-- One hour before the origin, in NTSC frames. -/
theorem quantisedRight_iff_ntsc :
    (QuantisedRight (-3600000000) 0 30000 1001 ↔ OperandsFit (-3600000000) 0 30000 1001) ∧
      calculateQuantisationFps (-3600000000) 0 30000 1001 = some (-107893) :=
  ⟨(quantisedRight_iff (by decide) (by decide) (by decide) (by decide)).1, by decide⟩

/-- With the origin at the end of the time range, the frame number of time zero is wrong already for
sixty frames a second: the product wraps. -/
theorem not_quantisedRight_origin : ¬ QuantisedRight 0 timeMax 60 1 := by
  rintro ⟨frameNr, hrun, hnr⟩
  cases hrun
  exact absurd hnr (by decide)

/-- A rate beyond one frame per tick divides by zero. -/
example : calculateQuantisationFps timeMax 0 1000001 1 = none := by decide

/-! ## A fixed frame grid (`lib/time/quantiser.hpp`)

The quantiser numbers the intervals of a grid with constant spacing; interval zero starts at the
origin, and each interval includes its lower bound. Points of the grid are converted back into
times, and these are limited to the range of times. -/

/-- `lumiera_time_of_gridpoint` -/
def timeOfGridpoint (nr : Int64) (origin grid : gavl_time_t) : gavl_time_t :=
  let offset := nr * grid
  origin + offset

/-- `FixedFrameQuantiser`: a degenerated grid is rejected. -/
structure FixedFrameQuantiser where
  origin_ : gavl_time_t
  raster_ : gavl_time_t
  origin_range : InTimeRange origin_
  raster_pos : 0 < raster_
  raster_le : raster_ ≤ durationMax

namespace FixedFrameQuantiser

theorem zero_range : InTimeRange 0 := by decide

theorem second_pos : (0 : gavl_time_t) < 1000000 := by decide

theorem second_le : (1000000 : gavl_time_t) ≤ durationMax := by decide

variable (grid : FixedFrameQuantiser)

/-- The number of the grid interval containing this time. -/
def gridPoint (rawTime : gavl_time_t) : Int64 := floordiv (rawTime - grid.origin_) grid.raster_

/-- The start of a grid interval. -/
def timeOf (gridPoint : Int64) : gavl_time_t :=
    limitedTime (timeOfGridpoint gridPoint grid.origin_ grid.raster_)

/-! ## The grid meant -/

/-- The start of a grid interval, without limits. -/
def startOf (n : ℤ) : ℤ := grid.origin_.toInt + n * grid.raster_.toInt

/-- **The first grid point at or after a time.** -/
def ceil (t : ℤ) : ℤ := -((grid.origin_.toInt - t) / grid.raster_.toInt)

theorem raster_toInt_pos : 0 < grid.raster_.toInt := by
  have h := grid.raster_pos
  rwa [Int64.lt_iff_toInt_lt, Int64.toInt_zero] at h

theorem raster_toInt_le : grid.raster_.toInt ≤ 614891469123651720 := by
  have h := grid.raster_le
  rwa [Int64.le_iff_toInt_le, toInt_durationMax, maxTicks_eq] at h

theorem startOf_succ (n : ℤ) : grid.startOf (n + 1) = grid.startOf n + grid.raster_.toInt := by
  unfold startOf
  ring

variable {n : ℤ}

theorem startOf_lt_iff {m : ℤ} : grid.startOf n < grid.startOf m ↔ n < m := by
  have hpos := grid.raster_toInt_pos
  unfold startOf
  rw [add_lt_add_iff_left, mul_lt_mul_iff_left₀ hpos]

theorem startOf_le_iff {m : ℤ} : grid.startOf n ≤ grid.startOf m ↔ n ≤ m := by
  rw [← not_lt, ← not_lt, startOf_lt_iff]

theorem le_startOf_iff {t : ℤ} : t ≤ grid.startOf n ↔ grid.ceil t ≤ n := by
  have hpos := grid.raster_toInt_pos
  rw [ceil, neg_le, startOf, Int.le_ediv_iff_mul_le hpos]
  constructor <;> intro h <;> linarith

theorem startOf_lt_time_iff {t : ℤ} : grid.startOf n < t ↔ n < grid.ceil t := by
  rw [← not_le, le_startOf_iff, not_le]

theorem ceil_mono {t t' : ℤ} (h : t ≤ t') : grid.ceil t ≤ grid.ceil t' :=
  grid.le_startOf_iff.mp (h.trans (grid.le_startOf_iff.mpr le_rfl))

/-! ## What is computed -/

variable {grid} {t : gavl_time_t}

theorem toInt_gridPoint (ht : InTimeRange t) :
    (grid.gridPoint t).toInt = (t.toInt - grid.origin_.toInt) / grid.raster_.toInt := by
  rw [gridPoint, toInt_floordiv _ grid.raster_toInt_pos, toInt_distance ht grid.origin_range]

theorem gridPoint_spec (ht : InTimeRange t) :
    grid.startOf (grid.gridPoint t).toInt ≤ t.toInt ∧ t.toInt < grid.startOf
      ((grid.gridPoint t).toInt + 1) := by
  have hpos := grid.raster_toInt_pos
  have hfloor := Int.ediv_mul_le (t.toInt - grid.origin_.toInt) hpos.ne'
  have hfloor' := Int.lt_ediv_add_one_mul_self (t.toInt - grid.origin_.toInt) hpos
  rw [toInt_gridPoint ht]
  unfold startOf
  constructor <;> linarith

/-- A grid interval close to the range of times. -/
def Near (grid : FixedFrameQuantiser) (n : ℤ) : Prop := -2 ^ 62 ≤ grid.startOf n ∧ grid.startOf n ≤ 2 ^ 62

theorem Near.product (hn : grid.Near n) : -2 ^ 62 - 307445734561825860 ≤ n * grid.raster_.toInt ∧
    n * grid.raster_.toInt ≤ 2 ^ 62 + 307445734561825860 := by
  obtain ⟨horigin, horigin'⟩ := (inTimeRange_iff _).mp grid.origin_range
  obtain ⟨hlow, hhigh⟩ := hn
  unfold startOf at hlow hhigh
  constructor <;> linarith

theorem Near.toInt_ofInt (hn : grid.Near n) : (Int64.ofInt n).toInt = n := by
  have hpos := grid.raster_toInt_pos
  obtain ⟨hproductLow, hproductHigh⟩ := hn.product
  rw [Int64.toInt_ofInt]
  apply Representable.bmod
  constructor <;> nlinarith

/-- Grid points are limited to the range of times. -/
theorem toInt_timeOf (hn : grid.Near n) : (grid.timeOf (Int64.ofInt n)).toInt = max (-307445734561825860)
    (min 307445734561825860 (grid.startOf n)) := by
  obtain ⟨hproductLow, hproductHigh⟩ := hn.product
  have hmul : (Int64.ofInt n * grid.raster_).toInt = n * grid.raster_.toInt := by
    rw [Int64.toInt_mul, hn.toInt_ofInt]
    exact Representable.bmod ⟨by omega, by omega⟩
  obtain ⟨hlow, hhigh⟩ := hn
  have hsum : (timeOfGridpoint (Int64.ofInt n) grid.origin_ grid.raster_).toInt = grid.startOf n := by
    have hfits : Representable (grid.startOf n) := ⟨by omega, by omega⟩
    rw [timeOfGridpoint, Int64.toInt_add, hmul]
    exact hfits.bmod
  rw [timeOf, limitedTime, toInt_symmetricLimit _ (by decide), toInt_timeMax]
  split_ifs <;> omega

end FixedFrameQuantiser

end Lumiera.Lib.RawTime
