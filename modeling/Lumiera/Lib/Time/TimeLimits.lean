import Lumiera.Base.BinaryRounding

/-! # Limits of times, offsets and durations (`lib/time/timevalue.hpp`, `lib/time/time.cpp`)

Times, offsets and durations are raw micro ticks in 64-bit integers, with arithmetic modulo 2^64.
They are confined to a fraction of this range: times by `limitedTime`, offsets to twice this range.
Some of the constructors compute the raw value first and limit it afterwards, and some do not limit
it at all. -/

namespace Lumiera.Lib.RawTime

/-- Raw micro ticks. -/
abbrev gavl_time_t := Int64

/-- The number of micro ticks in a second. -/
def SCALE : gavl_time_t := 1000000

/-- `Time::MAX` -/
def timeMax : gavl_time_t := Int64.maxValue / 30

/-- `Time::MIN` -/
def timeMin : gavl_time_t := -timeMax

/-- `Duration::MAX` -/
def durationMax : gavl_time_t := timeMax - timeMin

/-- The largest number of seconds which can be represented in micro ticks. -/
def FSEC_MAX : Int64 := Int64.maxValue / SCALE

/-! ## Limiting -/

/-- Confine a value to a range, symmetric around zero. -/
def symmetricLimit (raw lim : gavl_time_t) : gavl_time_t :=
  if raw > lim then lim
  else if -raw > lim then -lim
  else raw

/-- `TimeValue::limitedTime` -/
def limitedTime (raw : gavl_time_t) : gavl_time_t := symmetricLimit raw timeMax

/-- `TimeValue::limitedDelta`: the operands are limited first when their signs differ. -/
def limitedDelta (origin target : gavl_time_t) : gavl_time_t :=
  if 0 > origin ^^^ target then
    symmetricLimit (symmetricLimit target durationMax - symmetricLimit origin durationMax) durationMax
  else symmetricLimit (target - origin) durationMax

/-! ## Rational numbers -/

/-- `boost::rational<int64_t>`, in normal form. -/
structure Rational where
  numerator : Int64
  denominator : Int64
  denominator_pos : 0 < denominator.toInt
  reduced : Int.gcd numerator.toInt denominator.toInt = 1

/-- The number meant. -/
def Rational.value (q : Rational) : ℚ := q.numerator.toInt / q.denominator.toInt

/-- The greatest common divisor. -/
def gcd (a b : Int64) : Int64 := Int64.ofInt (Int.gcd a.toInt b.toInt)

/-- Division rounding towards the next smaller integer. -/
def floordiv (num den : Int64) : Int64 :=
  if 0 < num ^^^ den then num / den
  else if num % den ≠ 0 then num / den - 1 else num / den

/-- `Offset::stretchedByRationalFactor`: common divisors are cancelled, then the numerators are multiplied. -/
def stretchedByRationalFactor (t : gavl_time_t) (factor : Rational) : gavl_time_t :=
  let common := gcd t factor.denominator
  let microTicks := floordiv (t / common * factor.numerator) (factor.denominator / common)
  symmetricLimit microTicks durationMax

/-! ## Fractional seconds -/

/-- A floating point number converted to an integer: the fractional part is dropped. -/
def truncate (x : ℚ) : ℤ := if x < 0 then ⌈x⌉ else ⌊x⌋

/-- The factor used to shake off *number dust*, with this number of significant bits in floating point. -/
def ROUND_ULP (bits : ℕ) : ℚ :=
  roundBits bits (1 + roundBits bits (1 / roundBits bits (roundBits bits Int64.maxValue.toInt * 2)))

/-- The remainder of a division quantised to `1/u`, in floating point. -/
def quantisedRemainder (bits : ℕ) (r den u : Int64) : Int64 :=
  let frac := roundBits bits (roundBits bits r.toInt / roundBits bits den.toInt)
  Int64.ofInt (truncate (roundBits bits (roundBits bits (frac * u.toInt) * ROUND_ULP bits)))

/-- `util::reQuant` -/
def reQuant (bits : ℕ) (num den u : Int64) : Int64 :=
    num / den * u + quantisedRemainder bits (num % den) den u

/-- `lumiera_rational_to_time` -/
def rationalToTime (bits : ℕ) (fractionalSeconds : Rational) : gavl_time_t :=
  let magnitude := if fractionalSeconds.numerator ≥ 0 then fractionalSeconds.numerator else
    -fractionalSeconds.numerator
  -- the comparison of rational numbers is exact
  if magnitude.toInt > FSEC_MAX.toInt * fractionalSeconds.denominator.toInt then
    (if fractionalSeconds.numerator < 0 then -1 else 1) * Int64.maxValue
  else reQuant bits fractionalSeconds.numerator fractionalSeconds.denominator SCALE

/-! ## Frame counts -/

/-- `FrameRate`: frames per second, a rational number in normal form, which is not zero. -/
structure FrameRate where
  numerator : UInt32
  denominator : UInt32
  numerator_pos : 0 < numerator.toNat
  denominator_pos : 0 < denominator.toNat
  reduced : Nat.gcd numerator.toNat denominator.toNat = 1

/-- The greatest common divisor. -/
def ugcd (a b : UInt64) : UInt64 := UInt64.ofNat (Nat.gcd a.toNat b.toNat)

/-- `lumiera_framecount_to_time` -/
def framecountToTime (frameCount : UInt64) (fps : FrameRate) : gavl_time_t :=
  let ticks := SCALE.toUInt64 * frameCount
  let common := ugcd ticks fps.numerator.toUInt64
  let numerator := ticks / common * fps.denominator.toUInt64
  let denominator := fps.numerator.toUInt64 / common
  numerator.toInt64 / denominator.toInt64

/-- `::abs` -/
def abs (count : Int64) : Int64 := if count < 0 then -count else count

/-- The offset by a number of frames; there are no limits. -/
def offsetFrames (count : Int64) (fps : FrameRate) : gavl_time_t :=
  if count ≠ 0 then (if count < 0 then -1 else 1) * framecountToTime (abs count).toUInt64 fps else 0

/-! ## Offsets and durations -/

/-- How an offset is built. -/
inductive OffsetExpr
  /-- From the raw value of any time value, also of one used for calculations (`TimeVar`). -/
  | distance (raw : gavl_time_t)
  | seconds (deltaInSecs : Rational)
  | frames (count : Int64) (fps : FrameRate)
  | between (origin target : gavl_time_t)
  | add (start toChain : OffsetExpr)
  | sub (start toSubtract : OffsetExpr)
  | neg (o : OffsetExpr)
  | scale (factor : Int64) (o : OffsetExpr)
  | stretch (factor : Rational) (o : OffsetExpr)

/-- The offset, as raw micro ticks. -/
def OffsetExpr.raw (bits : ℕ) : OffsetExpr → gavl_time_t
  | distance raw => symmetricLimit raw durationMax
  | seconds deltaInSecs => symmetricLimit (rationalToTime bits deltaInSecs) durationMax
  | frames count fps => offsetFrames count fps
  | between origin target => limitedDelta origin target
  | add start toChain => symmetricLimit (start.raw bits + toChain.raw bits) durationMax
  | sub start toSubtract => symmetricLimit (start.raw bits - toSubtract.raw bits) durationMax
  | neg o => symmetricLimit (o.raw bits * -1) durationMax
  | scale factor o => symmetricLimit (o.raw bits * factor) durationMax
  | stretch factor o => stretchedByRationalFactor (o.raw bits) factor

/-- The duration built from an offset (`llabs`). -/
def durationOf (offset : gavl_time_t) : gavl_time_t := if offset < 0 then -offset else offset

/-! ## What the limits make of a computed value

Each of the functions is described as a function of integers. Only one value passes the limiter
unchanged though it is beyond the limits: the smallest 64-bit integer, since its negation is itself.
-/

/-- The bound of offsets and durations, as an integer. -/
def maxTicks : ℤ := 614891469123651720

theorem maxTicks_eq : maxTicks = 614891469123651720 := rfl

theorem toInt_timeMax : timeMax.toInt = 307445734561825860 := rfl

theorem toInt_durationMax : durationMax.toInt = maxTicks := rfl

theorem toInt_SCALE : SCALE.toInt = 1000000 := rfl

theorem toInt_FSEC_MAX : FSEC_MAX.toInt = 9223372036854 := rfl

/-- In the range of 64-bit integers. -/
def Representable (x : ℤ) : Prop := -2 ^ 63 ≤ x ∧ x < 2 ^ 63

theorem representable_toInt (a : Int64) : Representable a.toInt := ⟨a.le_toInt, a.toInt_lt⟩

theorem Representable.bmod {x : ℤ} (h : Representable x) : x.bmod (2 ^ 64) = x := by
  obtain ⟨hlow, hhigh⟩ := h
  rw [Int.bmod_def]
  omega

theorem representable_bmod (x : ℤ) : Representable (x.bmod (2 ^ 64)) := by
  unfold Representable
  rw [Int.bmod_def]
  omega

theorem exists_bmod_eq (x : ℤ) : ∃ k : ℤ, x.bmod (2 ^ 64) = x - 2 ^ 64 * k := by
  rw [Int.bmod_def]
  split
  · exact ⟨x / 2 ^ 64, by omega⟩
  · exact ⟨x / 2 ^ 64 + 1, by omega⟩

theorem bmod_eq_smallest_iff (x : ℤ) : x.bmod (2 ^ 64) = -2 ^ 63 ↔ 2 ^ 64 ∣ x - 2 ^ 63 := by
  rw [Int.bmod_def]
  omega

/-! ## The limiter -/

/-- **What the limiter does**: beyond the limits it delivers the limit, save for the smallest
integer of all. -/
theorem toInt_symmetricLimit (raw : gavl_time_t) {lim : gavl_time_t} (hlim : 0 ≤ lim.toInt) :
    (symmetricLimit raw lim).toInt =
      if raw.toInt > lim.toInt then lim.toInt
      else if raw.toInt = -2 ^ 63 then -2 ^ 63
      else if raw.toInt < -lim.toInt then -lim.toInt
      else raw.toInt := by
  obtain ⟨hlow, hhigh⟩ := representable_toInt raw
  obtain ⟨-, hlimHigh⟩ := representable_toInt lim
  have hneg : raw.toInt ≠ -2 ^ 63 → (-raw).toInt = -raw.toInt := by
    intro hne
    rw [Int64.toInt_neg]
    exact Representable.bmod ⟨by omega, by omega⟩
  have hneglim : (-lim).toInt = -lim.toInt := by
    rw [Int64.toInt_neg]
    exact Representable.bmod ⟨by omega, by omega⟩
  have hmin : raw.toInt = -2 ^ 63 → (-raw).toInt = -2 ^ 63 := by
    intro heq
    rw [Int64.toInt_neg, heq]
    decide
  unfold symmetricLimit
  simp only [Int64.lt_iff_toInt_lt]
  split_ifs <;> omega

theorem symmetricLimit_cases (raw : gavl_time_t) :
    (maxTicks < raw.toInt ∧ (symmetricLimit raw durationMax).toInt = maxTicks) ∨
      (raw.toInt = -2 ^ 63 ∧ (symmetricLimit raw durationMax).toInt = -2 ^ 63) ∨
      (raw.toInt ≠ -2 ^ 63 ∧ raw.toInt < -maxTicks ∧ (symmetricLimit raw durationMax).toInt = -maxTicks) ∨
      (-maxTicks ≤ raw.toInt ∧ raw.toInt ≤ maxTicks ∧
      (symmetricLimit raw durationMax).toInt = raw.toInt) := by
  rw [toInt_symmetricLimit raw (by decide), toInt_durationMax]
  split_ifs <;> omega

/-- **A result is right** when it is within the limits, exact when the mathematical result is within
the limits, and makes a duration within its limits. -/
def Within (raw : gavl_time_t) : Prop :=
  -maxTicks ≤ raw.toInt ∧ raw.toInt ≤ maxTicks ∧ 0 ≤ (durationOf raw).toInt ∧
    (durationOf raw).toInt ≤ maxTicks

theorem within_iff (raw : gavl_time_t) : Within raw ↔ -maxTicks ≤ raw.toInt ∧ raw.toInt ≤ maxTicks := by
  have hmax := maxTicks_eq
  refine ⟨fun h => ⟨h.1, h.2.1⟩, fun h => ⟨h.1, h.2, ?_⟩⟩
  unfold durationOf
  simp only [Int64.lt_iff_toInt_lt, Int64.toInt_zero]
  split_ifs with hneg
  · have hrepresentable : Representable (-raw.toInt) := ⟨by omega, by omega⟩
    rw [Int64.toInt_neg, hrepresentable.bmod]
    omega
  · omega

theorem within_symmetricLimit_iff (raw : gavl_time_t) :
    Within (symmetricLimit raw durationMax) ↔ raw.toInt ≠ -2 ^ 63 := by
  have hmax := maxTicks_eq
  rw [within_iff]
  rcases symmetricLimit_cases raw with h | h | h | h <;> omega

theorem symmetricLimit_of_le {raw : gavl_time_t} (hlow : -maxTicks ≤ raw.toInt) (hhigh : raw.toInt ≤ maxTicks) :
    (symmetricLimit raw durationMax).toInt = raw.toInt := by
  rcases symmetricLimit_cases raw with h | h | h | h <;> omega

/-- A value computed modulo 2^64 and then limited: it is right unless it became the smallest integer. -/
theorem right_iff_of_wrapped {raw : gavl_time_t} {exact : ℤ} (hraw : raw.toInt = exact.bmod (2 ^ 64)) :
    (Within (symmetricLimit raw durationMax) ∧
      (-maxTicks ≤ exact → exact ≤ maxTicks → (symmetricLimit raw durationMax).toInt = exact)) ↔
      exact.bmod (2 ^ 64) ≠ -2 ^ 63 := by
  have hmax := maxTicks_eq
  rw [within_symmetricLimit_iff, hraw]
  refine ⟨fun h => h.1, fun h => ⟨h, fun hlow hhigh => ?_⟩⟩
  have hexact : raw.toInt = exact := by
    rw [hraw]
    exact Representable.bmod ⟨by omega, by omega⟩
  rw [symmetricLimit_of_le (by omega) (by omega), hexact]

/-! ## Signs -/

theorem toInt_xor_neg_iff (a b : Int64) : (a ^^^ b).toInt < 0 ↔ (a.toInt < 0 ↔ ¬ b.toInt < 0) := by
  have hsign : ∀ x : Int64, x.toInt < 0 ↔ x.toBitVec.msb = true := by
    intro x
    rw [BitVec.msb_eq_toInt, decide_eq_true_iff]
    rfl
  rw [hsign, hsign, hsign, Int64.toBitVec_xor, BitVec.msb_xor]
  cases a.toBitVec.msb <;> cases b.toBitVec.msb <;> decide

/-- Limiting the difference fails but for the smallest integer and zero. -/
theorem right_limitedDelta_iff (origin target : gavl_time_t) :
    (Within (limitedDelta origin target) ∧
      (-maxTicks ≤ target.toInt - origin.toInt → target.toInt - origin.toInt ≤ maxTicks →
        (limitedDelta origin target).toInt = target.toInt - origin.toInt)) ↔
      ¬ (origin.toInt = -2 ^ 63 ∧ target.toInt = 0 ∨ origin.toInt = 0 ∧ target.toInt = -2 ^ 63) := by
  have hmax := maxTicks_eq
  obtain ⟨holow, hohigh⟩ := representable_toInt origin
  obtain ⟨htlow, hthigh⟩ := representable_toInt target
  unfold limitedDelta
  simp only [Int64.lt_iff_toInt_lt, Int64.toInt_zero]
  by_cases hsign : (origin ^^^ target).toInt < 0
  · rw [if_pos hsign]
    rw [toInt_xor_neg_iff] at hsign
    have hraw : (symmetricLimit target durationMax - symmetricLimit origin durationMax).toInt =
        ((symmetricLimit target durationMax).toInt - (symmetricLimit origin durationMax).toInt).bmod
        (2 ^ 64) :=
      Int64.toInt_sub _ _
    generalize symmetricLimit target durationMax - symmetricLimit origin durationMax = delta at hraw
    rw [within_symmetricLimit_iff]
    have hdelta := symmetricLimit_cases delta
    have ho := symmetricLimit_cases origin
    have ht := symmetricLimit_cases target
    rw [Int.bmod_def] at hraw
    split at hraw <;> rcases ho with ho | ho | ho | ho <;> rcases ht with ht | ht | ht | ht <;>
      rcases hdelta with hdelta | hdelta | hdelta | hdelta <;> omega
  · rw [if_neg hsign]
    rw [toInt_xor_neg_iff] at hsign
    have hraw : (target - origin).toInt = (target.toInt - origin.toInt).bmod (2 ^ 64) := Int64.toInt_sub _ _
    have hrepresentable : Representable (target.toInt - origin.toInt) := ⟨by omega, by omega⟩
    rw [right_iff_of_wrapped hraw, hrepresentable.bmod]
    omega

/-! ## Offsets multiplied by a rational factor

The product is a fraction: common divisors are cancelled, and what remains of the numerators is
multiplied modulo 2^64. A wrapped numerator never leads to the proper quotient. -/

theorem toInt_gcd (t : Int64) (factor : Rational) :
    (gcd t factor.denominator).toInt = Int.gcd t.toInt factor.denominator.toInt := by
  have hle : (Int.gcd t.toInt factor.denominator.toInt : ℤ) ≤ factor.denominator.toInt :=
    Int.le_of_dvd factor.denominator_pos (Int.gcd_dvd_right ..)
  have hhigh := factor.denominator.toInt_lt
  rw [gcd, Int64.toInt_ofInt]
  exact Representable.bmod ⟨by omega, by omega⟩

theorem toInt_div_of_dvd {a b : Int64} (hpos : 0 < b.toInt) (hdvd : b.toInt ∣ a.toInt) :
    (a / b).toInt = a.toInt / b.toInt := by
  obtain ⟨k, hk⟩ := hdvd
  have hquotient : a.toInt.tdiv b.toInt = k := by
    rw [hk, Int.mul_tdiv_cancel_left _ (by omega)]
  have hdiv : a.toInt / b.toInt = k := by
    rw [hk, Int.mul_ediv_cancel_left _ (by omega)]
  rw [Int64.toInt_div, hquotient, hdiv]
  apply Representable.bmod
  obtain ⟨hlow, hhigh⟩ := representable_toInt a
  constructor <;> nlinarith

/-- `floordiv` rounds towards the smaller integer. -/
theorem toInt_floordiv (num : Int64) {den : Int64} (hpos : 0 < den.toInt) :
    (floordiv num den).toInt = num.toInt / den.toInt := by
  obtain ⟨hlow, hhigh⟩ := representable_toInt num
  have htrunc : num.toInt.tdiv den.toInt =
      num.toInt / den.toInt + if 0 ≤ num.toInt ∨ den.toInt ∣ num.toInt then 0 else 1 := by
    rw [Int.tdiv_eq_ediv, Int.sign_eq_one_of_pos hpos]
  have hbelow : -2 ^ 63 ≤ num.toInt / den.toInt := by
    rw [Int.le_ediv_iff_mul_le hpos]
    nlinarith
  have habove : num.toInt / den.toInt < 2 ^ 63 := by
    rw [Int.ediv_lt_iff_lt_mul hpos]
    nlinarith
  have hquotient : (num / den).toInt = num.toInt.tdiv den.toInt := by
    rw [Int64.toInt_div]
    apply Representable.bmod
    rw [htrunc]
    split_ifs with h
    · exact ⟨by omega, by omega⟩
    · -- the numerator is negative here, and so is the quotient
      have hneg : num.toInt / den.toInt < 0 := Int.ediv_neg_of_neg_of_pos (by omega) hpos
      exact ⟨by omega, by omega⟩
  have hremainder : num % den ≠ 0 ↔ ¬ den.toInt ∣ num.toInt := by
    rw [Int.dvd_iff_tmod_eq_zero, ← Int64.toInt_mod, ne_eq, ← Int64.toInt_inj, Int64.toInt_zero]
  have hxor := toInt_xor_neg_iff num den
  unfold floordiv
  simp only [Int64.lt_iff_toInt_lt, Int64.toInt_zero]
  split_ifs with hsame hrest
  · omega
  · rw [hremainder] at hrest
    have hneg : num.toInt < 0 := by
      by_contra hnonneg
      -- without a sign in the difference, the operands are the same
      have heq : num ^^^ den = 0 := by
        apply Int64.toInt_inj.mp
        rw [Int64.toInt_zero]
        omega
      rw [Int64.xor_eq_zero_iff] at heq
      exact hrest (heq ▸ dvd_rfl)
    have hrepresentable : Representable (num.toInt / den.toInt + 1 - 1) := ⟨by omega, by omega⟩
    rw [Int64.toInt_sub, Int64.toInt_one, hquotient, htrunc, if_neg (by omega), hrepresentable.bmod]
    omega
  · rw [hremainder] at hrest
    omega

/-- The numerator of the product, after cancelling. -/
def productNumerator (t : gavl_time_t) (factor : Rational) : ℤ :=
  t.toInt / Int.gcd t.toInt factor.denominator.toInt * factor.numerator.toInt

/-- The denominator of the product, after cancelling. -/
def productDenominator (t : gavl_time_t) (factor : Rational) : ℤ :=
  factor.denominator.toInt / Int.gcd t.toInt factor.denominator.toInt

theorem productDenominator_pos (t : gavl_time_t) (factor : Rational) : 0 < productDenominator t factor := by
  have hpos := factor.denominator_pos
  have hdvd : (Int.gcd t.toInt factor.denominator.toInt : ℤ) ∣ factor.denominator.toInt :=
      Int.gcd_dvd_right ..
  have hgcd : (0 : ℤ) < Int.gcd t.toInt factor.denominator.toInt := by
    exact_mod_cast Int.gcd_pos_of_ne_zero_right _ (by omega)
  exact Int.ediv_pos_of_pos_of_dvd hpos hgcd.le hdvd

theorem productDenominator_lt (t : gavl_time_t) (factor : Rational) : productDenominator t factor < 2 ^ 63 := by
  have hhigh := factor.denominator.toInt_lt
  have hpos := factor.denominator_pos
  have hle := Int.ediv_le_self (Int.gcd t.toInt factor.denominator.toInt) hpos.le
  unfold productDenominator
  omega

theorem productNumerator_div (t : gavl_time_t) (factor : Rational) :
    (productNumerator t factor : ℚ) / productDenominator t factor = factor.value * t.toInt := by
  have hpos := factor.denominator_pos
  have hgcd : (Int.gcd t.toInt factor.denominator.toInt : ℤ) ≠ 0 := by
    exact_mod_cast (Int.gcd_pos_of_ne_zero_right _ (by omega)).ne'
  have hnum : ((t.toInt / Int.gcd t.toInt factor.denominator.toInt : ℤ) : ℚ) =
      t.toInt / (Int.gcd t.toInt factor.denominator.toInt : ℤ) :=
    Int.cast_div (Int.gcd_dvd_left ..) (by exact_mod_cast hgcd)
  have hden : ((factor.denominator.toInt / Int.gcd t.toInt factor.denominator.toInt : ℤ) : ℚ) =
      factor.denominator.toInt / (Int.gcd t.toInt factor.denominator.toInt : ℤ) :=
    Int.cast_div (Int.gcd_dvd_right ..) (by exact_mod_cast hgcd)
  rw [productNumerator, productDenominator, Int.cast_mul, hnum, hden, Rational.value]
  field_simp

/-- What the computation delivers: the quotient of the wrapped numerator, limited. -/
theorem stretchedByRationalFactor_eq (t : gavl_time_t) (factor : Rational) : ∃ microTicks : gavl_time_t,
    microTicks.toInt = (productNumerator t factor).bmod (2 ^ 64) / productDenominator t factor ∧
      stretchedByRationalFactor t factor = symmetricLimit microTicks durationMax := by
  refine ⟨floordiv (t / gcd t factor.denominator * factor.numerator)
    (factor.denominator / gcd t factor.denominator),
    ?_, rfl⟩
  have hpos := factor.denominator_pos
  have hgcd : 0 < (gcd t factor.denominator).toInt := by
    rw [toInt_gcd]
    exact_mod_cast Int.gcd_pos_of_ne_zero_right _ (by omega)
  have hnum : (t / gcd t factor.denominator).toInt = t.toInt / (gcd t factor.denominator).toInt := by
    apply toInt_div_of_dvd hgcd
    rw [toInt_gcd]
    exact Int.gcd_dvd_left ..
  have hden : (factor.denominator / gcd t factor.denominator).toInt = productDenominator t factor := by
    rw [toInt_div_of_dvd hgcd, toInt_gcd, productDenominator]
    rw [toInt_gcd]
    exact Int.gcd_dvd_right ..
  have hproduct := productDenominator_pos t factor
  rw [toInt_floordiv _ (by omega), hden, Int64.toInt_mul, hnum, toInt_gcd, productNumerator]

/-- **The numerator wraps** though the product is within the limits, or nothing is left to divide by
and the product wraps to the smallest integer. -/
def StretchFails (t : gavl_time_t) (factor : Rational) : Prop :=
  (|productNumerator t factor| ≤ maxTicks * productDenominator t factor ∧
      ¬ Representable (productNumerator t factor)) ∨
    (productDenominator t factor = 1 ∧ 2 ^ 64 ∣ productNumerator t factor - 2 ^ 63)

theorem abs_stretched_le_iff (t : gavl_time_t) (factor : Rational) : |factor.value * t.toInt| ≤ maxTicks ↔
    |productNumerator t factor| ≤ maxTicks * productDenominator t factor := by
  have hpos : (0 : ℚ) < productDenominator t factor := by exact_mod_cast productDenominator_pos t factor
  rw [← productNumerator_div, abs_div, abs_of_pos hpos, div_le_iff₀ hpos]
  exact_mod_cast Iff.rfl

theorem floor_stretched (t : gavl_time_t) (factor : Rational) :
    ⌊factor.value * t.toInt⌋ = productNumerator t factor / productDenominator t factor := by
  have hpos := productDenominator_pos t factor
  obtain ⟨d, hd⟩ := Int.eq_ofNat_of_zero_le hpos.le
  rw [← productNumerator_div, hd, Int.cast_natCast, Rat.floor_intCast_div_natCast]

theorem wrapped_ediv_ne {p d : ℤ} (hpos : 0 < d) (hlt : d < 2 ^ 63) (hwrap : ¬ Representable p) :
    p.bmod (2 ^ 64) / d ≠ p / d := by
  obtain ⟨k, hk⟩ := exists_bmod_eq p
  have hne : k ≠ 0 := by
    intro hzero
    rw [hzero] at hk
    have := representable_bmod p
    exact hwrap (by rwa [hk, mul_zero, sub_zero] at this)
  rw [hk]
  rcases lt_or_gt_of_ne hne with hneg | hpos'
  · have hle : (p + 2 * d) / d ≤ (p - 2 ^ 64 * k) / d := Int.ediv_le_ediv hpos (by omega)
    rw [Int.add_mul_ediv_right _ _ hpos.ne'] at hle
    omega
  · have hle : (p - 2 ^ 64 * k) / d ≤ (p + -2 * d) / d := Int.ediv_le_ediv hpos (by omega)
    rw [Int.add_mul_ediv_right _ _ hpos.ne'] at hle
    omega

/-- A rational factor is right unless the numerator of the product wraps badly. -/
theorem right_stretch_iff (t : gavl_time_t) (factor : Rational) :
    (Within (stretchedByRationalFactor t factor) ∧
      (|factor.value * t.toInt| ≤ maxTicks →
        (stretchedByRationalFactor t factor).toInt = ⌊factor.value * t.toInt⌋)) ↔
      ¬ StretchFails t factor := by
  obtain ⟨microTicks, hmicro, hstretched⟩ := stretchedByRationalFactor_eq t factor
  have hmax := maxTicks_eq
  have hpos := productDenominator_pos t factor
  have hlt := productDenominator_lt t factor
  rw [hstretched, within_symmetricLimit_iff, abs_stretched_le_iff, floor_stretched, StretchFails, hmicro,
    ← bmod_eq_smallest_iff]
  generalize productNumerator t factor = p at *
  generalize productDenominator t factor = d at *
  obtain ⟨hwlow, hwhigh⟩ := representable_bmod p
  have hsmallest : p.bmod (2 ^ 64) / d = -2 ^ 63 ↔ d = 1 ∧ p.bmod (2 ^ 64) = -2 ^ 63 := by
    constructor
    · intro heq
      rcases eq_or_lt_of_le (show 1 ≤ d by omega) with hone | hlarge
      · rw [← hone, Int.ediv_one] at heq
        exact ⟨hone.symm, heq⟩
      · have hle : -2 ^ 62 ≤ p.bmod (2 ^ 64) / d := by
          rw [Int.le_ediv_iff_mul_le hpos]
          omega
        omega
    · rintro ⟨rfl, heq⟩
      rw [Int.ediv_one, heq]
  have hquotient : |p| ≤ maxTicks * d → -maxTicks ≤ p / d ∧ p / d ≤ maxTicks := by
    intro hle
    rw [abs_le] at hle
    rw [Int.le_ediv_iff_mul_le hpos]
    refine ⟨by linarith, Int.ediv_le_of_le_mul hpos hle.2⟩
  rw [ne_eq, hsmallest]
  constructor
  · rintro ⟨hwithin, hexact⟩ (⟨hle, hwrap⟩ | hbad)
    · have hwrapped := hexact hle
      -- the divisor is large, hence nothing is limited
      have hlarge : 16 ≤ d := by
        by_contra hsmall
        apply hwrap
        rw [abs_le, hmax] at hle
        constructor <;> omega
      have hlow : -maxTicks ≤ p.bmod (2 ^ 64) / d := by
        rw [Int.le_ediv_iff_mul_le hpos, hmax]
        omega
      have hhigh : p.bmod (2 ^ 64) / d ≤ maxTicks := by
        apply Int.ediv_le_of_le_mul hpos
        rw [hmax]
        omega
      rw [symmetricLimit_of_le (by omega) (by omega), hmicro] at hwrapped
      exact wrapped_ediv_ne hpos hlt hwrap hwrapped
    · exact hwithin hbad
  · intro hsafe
    refine ⟨fun hbad => hsafe (Or.inr hbad), fun hle => ?_⟩
    have hrepresentable : Representable p := by
      by_contra hwrap
      exact hsafe (Or.inl ⟨hle, hwrap⟩)
    rw [hrepresentable.bmod] at hmicro
    rw [symmetricLimit_of_le (by omega) (by omega), hmicro]

end Lumiera.Lib.RawTime
