import Lumiera.Lib.Time.TimeLimits

/-! # Offsets from fractional seconds

The remainder is quantised in floating point, with at least as many significant bits as an integer
has (64). Whole micro ticks are met exactly; otherwise, the error is less than a micro tick. Thus a
fraction of seconds is always right, and even when the product wraps, it never becomes the smallest
integer. -/

namespace Lumiera.Lib.RawTime

variable {bits : ℕ}

/-! ## Quantising the remainder -/

/-- The relative error of a floating point operation. -/
def rel (bits : ℕ) : ℚ := 1 / 2 ^ bits

theorem rel_pos (bits : ℕ) : 0 < rel bits := by
  unfold rel
  positivity

theorem rel_le (hbits : 64 ≤ bits) : rel bits ≤ 1 / 2 ^ 64 :=
  one_div_le_one_div_of_le (by positivity) (pow_le_pow_right₀ one_le_two hbits)

theorem roundBits_toInt (hbits : 64 ≤ bits) {n : ℤ} (hlt : n.natAbs < 2 ^ 64) : roundBits bits n = n :=
  roundBits_intCast (lt_of_lt_of_le hlt (Nat.pow_le_pow_right two_pos hbits))

/-- The factor is large enough to outweigh the errors of two operations, and hardly more than one. -/
theorem ROUND_ULP_bounds (hbits : 64 ≤ bits) :
    1 + 2 * rel bits ≤ ROUND_ULP bits ∧ ROUND_ULP bits ≤ 1 + 1 / 2 ^ 60 := by
  have hrelle := rel_le hbits
  have hmax : roundBits bits (Int64.maxValue.toInt : ℚ) = (9223372036854775807 : ℤ) :=
    roundBits_toInt hbits (by decide)
  have htwice : roundBits bits ((9223372036854775807 : ℤ) * 2) = (18446744073709551614 : ℤ) := by
    have heq : ((9223372036854775807 : ℤ) : ℚ) * 2 = (18446744073709551614 : ℤ) := by norm_num
    rw [heq, roundBits_toInt hbits (by decide)]
  obtain ⟨hlow, hhigh⟩ := roundBits_bounds bits (x := 1 / (18446744073709551614 : ℤ)) (by norm_num)
  unfold ROUND_ULP
  rw [hmax, htwice]
  generalize roundBits bits (1 / (18446744073709551614 : ℤ)) = z at *
  rw [← rel] at hlow hhigh
  have hzlow : rel bits < z := by
    linarith
  constructor
  · have hround := one_add_ulp_le_roundBits (by omega) hzlow (by linarith)
    rw [rel, mul_one_div]
    exact hround
  · have hround := (roundBits_bounds bits (x := 1 + z) (by linarith [rel_pos bits])).2
    rw [← rel] at hround
    nlinarith

/-- Two operations and the factor: the errors nearly compensate from below, and are small from above. -/
theorem scaled_bounds (hbits : 64 ≤ bits) {a u : ℚ} (ha : 0 ≤ a) (hu : 0 ≤ u) :
    a * u ≤ roundBits bits (roundBits bits a * u) * ROUND_ULP bits * (1 + rel bits / 4) ∧
      roundBits bits (roundBits bits a * u) * ROUND_ULP bits ≤ a * u * (1 + 1 / 2 ^ 50) := by
  obtain ⟨hulplow, hulphigh⟩ := ROUND_ULP_bounds hbits
  have hpos := rel_pos bits
  have hle := rel_le hbits
  obtain ⟨hlow, hhigh⟩ := roundBits_bounds bits ha
  rw [← rel] at hlow hhigh
  generalize roundBits bits a = frac at *
  have hfrac : 0 ≤ frac := le_trans (mul_nonneg ha (by linarith)) hlow
  obtain ⟨hlow', hhigh'⟩ := roundBits_bounds bits (mul_nonneg hfrac hu)
  rw [← rel] at hlow' hhigh'
  generalize roundBits bits (frac * u) = scaled at *
  generalize ROUND_ULP bits = factor at *
  generalize rel bits = e at *
  have hau : 0 ≤ a * u := mul_nonneg ha hu
  have hscaledLow : a * u * (1 - e) ^ 2 ≤ scaled := by
    calc a * u * (1 - e) ^ 2
        = a * (1 - e) * u * (1 - e) := by ring
      _ ≤ frac * u * (1 - e) := by gcongr; linarith
      _ ≤ scaled := hlow'
  have hscaledHigh : scaled ≤ a * u * (1 + e) ^ 2 := by
    calc scaled
        ≤ frac * u * (1 + e) := hhigh'
      _ ≤ a * (1 + e) * u * (1 + e) := by gcongr
      _ = a * u * (1 + e) ^ 2 := by ring
  have hscaled : 0 ≤ scaled := le_trans (mul_nonneg hau (sq_nonneg _)) hscaledLow
  have hfactor : 0 ≤ factor := by linarith
  constructor
  · calc a * u
        ≤ a * u * ((1 - e) ^ 2 * (1 + 2 * e) * (1 + e / 4)) := by
          apply le_mul_of_one_le_right hau
          nlinarith [pow_pos hpos 2, pow_pos hpos 3]
      _ = a * u * (1 - e) ^ 2 * (1 + 2 * e) * (1 + e / 4) := by ring
      _ ≤ scaled * factor * (1 + e / 4) := by gcongr
  · calc scaled * factor
        ≤ a * u * (1 + e) ^ 2 * (1 + 1 / 2 ^ 60) := by gcongr
      _ = a * u * ((1 + e) ^ 2 * (1 + 1 / 2 ^ 60)) := by ring
      _ ≤ a * u * (1 + 1 / 2 ^ 50) := by
          apply mul_le_mul_of_nonneg_left _ hau
          have hsquare : (1 + e) ^ 2 ≤ (1 + 1 / 2 ^ 64) ^ 2 := by gcongr
          linarith

/-- A fraction, quantised: whole numbers are met, and the error is always less than one. -/
theorem quantised_error (hbits : 64 ≤ bits) {a u : ℚ} (ha : 0 ≤ a) (hu : 0 ≤ u) (hle : a * u ≤ 2 ^ 32) :
    |((truncate (roundBits bits (roundBits bits (roundBits bits a * u) * ROUND_ULP bits)) : ℤ) : ℚ) - a * u| < 1 := by
  obtain ⟨hlow, hhigh⟩ := scaled_bounds hbits ha hu
  have hpos := rel_pos bits
  have hrel := rel_le hbits
  generalize roundBits bits (roundBits bits a * u) * ROUND_ULP bits = product at *
  have hau : 0 ≤ a * u := mul_nonneg ha hu
  have hproduct : 0 ≤ product := by
    by_contra hneg
    have : product * (1 + rel bits / 4) < 0 := mul_neg_of_neg_of_pos (not_le.mp hneg) (by linarith)
    linarith
  have habove : roundBits bits product < a * u + 1 := by
    have hround := (roundBits_bounds bits hproduct).2
    rw [← rel] at hround
    nlinarith
  have hbelow : (⌊a * u⌋ : ℚ) ≤ roundBits bits product := by
    rcases eq_or_lt_of_le hproduct with hzero | hproduct'
    · rw [← hzero, zero_mul] at hlow
      have hau0 : a * u = 0 := le_antisymm hlow hau
      have hnone := roundBits_toInt hbits (n := 0) (by decide)
      rw [Int.cast_zero] at hnone
      rw [← hzero, hau0, Int.floor_zero, hnone, Int.cast_zero]
    · apply le_roundBits hproduct'
      · have hrange : (2 : ℚ) ^ 64 ≤ 2 ^ bits := pow_le_pow_right₀ one_le_two hbits
        linarith
      · have hscaled : product / 2 ^ bits / 4 = product * (rel bits / 4) := by
          rw [rel]
          ring
        linarith [Int.floor_le (a * u)]
  have hfloor : (0 : ℤ) ≤ ⌊a * u⌋ := Int.floor_nonneg.mpr hau
  have hnonneg : ¬ roundBits bits product < 0 := by
    have : (0 : ℚ) ≤ ⌊a * u⌋ := by exact_mod_cast hfloor
    linarith
  rw [truncate, if_neg hnonneg, abs_lt]
  have hwhole : (⌊a * u⌋ : ℚ) ≤ ⌊roundBits bits product⌋ := by
    exact_mod_cast Int.le_floor.mpr hbelow
  constructor
  · linarith [Int.lt_floor_add_one (a * u)]
  · linarith [Int.floor_le (roundBits bits product)]

theorem truncate_neg (x : ℚ) : truncate (-x) = -truncate x := by
  unfold truncate
  rcases lt_trichotomy x 0 with hneg | rfl | hpos
  · rw [if_neg (by linarith), if_pos hneg, Int.floor_neg]
  · simp
  · rw [if_pos (by linarith), if_neg (by linarith), Int.ceil_neg]

theorem quantised_error_of_abs (hbits : 64 ≤ bits) {a u : ℚ} (hu : 0 ≤ u) (hle : |a| * u ≤ 2 ^ 32) :
    |((truncate (roundBits bits (roundBits bits (roundBits bits a * u) * ROUND_ULP bits)) : ℤ) : ℚ) - a * u| < 1 := by
  rcases le_total 0 a with hnonneg | hneg
  · rw [abs_of_nonneg hnonneg] at hle
    exact quantised_error hbits hnonneg hu hle
  · rw [abs_of_nonpos hneg] at hle
    have herror := quantised_error hbits (neg_nonneg.mpr hneg) hu hle
    rw [roundBits_neg, neg_mul, roundBits_neg, neg_mul, roundBits_neg, truncate_neg, ← abs_neg] at herror
    rw [Int.cast_neg, neg_mul, neg_sub_neg, neg_sub] at herror
    exact herror

/-- The remainder of a division, quantised, misses the proper value by less than one. -/
theorem quantisedRemainder_error (hbits : 64 ≤ bits) {r den u : Int64} (hr : |r.toInt| < den.toInt) (hu : 0 ≤ u.toInt)
    (hle : u.toInt ≤ 2 ^ 32) : |((quantisedRemainder bits r den u).toInt : ℚ) - r.toInt * u.toInt / den.toInt| < 1 :=
    by
  obtain ⟨hrlow, hrhigh⟩ := representable_toInt r
  obtain ⟨-, hdenhigh⟩ := representable_toInt den
  have hden : (0 : ℚ) < den.toInt := by
    exact_mod_cast lt_of_le_of_lt (abs_nonneg r.toInt) hr
  have hu' : (0 : ℚ) ≤ u.toInt := by exact_mod_cast hu
  have hle' : (u.toInt : ℚ) ≤ 2 ^ 32 := by exact_mod_cast hle
  have hfraction : |(r.toInt : ℚ) / den.toInt| * u.toInt ≤ u.toInt := by
    apply mul_le_of_le_one_left hu'
    rw [abs_div, abs_of_pos hden, div_le_one hden]
    exact_mod_cast hr.le
  have herror := quantised_error_of_abs hbits hu' (le_trans hfraction hle')
  have hmove : (r.toInt : ℚ) / den.toInt * u.toInt = r.toInt * u.toInt / den.toInt := div_mul_eq_mul_div ..
  have hden0 : 0 < den.toInt := by exact_mod_cast hden
  unfold quantisedRemainder
  rw [roundBits_toInt hbits (by omega), roundBits_toInt hbits (by omega), Int64.toInt_ofInt]
  generalize truncate _ = result at *
  have hsmall : |(result : ℚ)| < 2 ^ 32 + 1 := by
    have htriangle := abs_sub_abs_le_abs_sub (result : ℚ) ((r.toInt : ℚ) / den.toInt * u.toInt)
    rw [abs_mul, abs_of_nonneg hu'] at htriangle
    linarith
  have hrepresentable : Representable result := by
    have hsmall' : |result| < 2 ^ 32 + 1 := by exact_mod_cast hsmall
    rw [abs_lt] at hsmall'
    exact ⟨by omega, by omega⟩
  have hword : result.bmod Int64.size = result := hrepresentable.bmod
  rw [hword, ← hmove]
  exact herror

/-! ## The whole quotient -/

/-- The micro ticks of this number of seconds. -/
def secondsExact (q : Rational) : ℚ := q.value * 1000000

/-- What is computed misses the proper value by less than a micro tick, before it wraps. -/
theorem reQuant_eq (hbits : 64 ≤ bits) (q : Rational) : ∃ ticks : ℤ,
    (reQuant bits q.numerator q.denominator SCALE).toInt = ticks.bmod (2 ^ 64) ∧
    |(ticks : ℚ) - secondsExact q| < 1 := by
  have hpos := q.denominator_pos
  have hremainder : |(q.numerator % q.denominator).toInt| < q.denominator.toInt := by
    have heq := Int.natAbs_tmod q.numerator.toInt q.denominator.toInt
    have hlt := Nat.mod_lt q.numerator.toInt.natAbs (show 0 < q.denominator.toInt.natAbs by omega)
    rw [Int64.toInt_mod, Int.abs_eq_natAbs]
    omega
  have herror := quantisedRemainder_error hbits hremainder (u := SCALE) (by decide) (by decide)
  refine ⟨q.numerator.toInt.tdiv q.denominator.toInt * 1000000 +
    (quantisedRemainder bits (q.numerator % q.denominator) q.denominator SCALE).toInt, ?_, ?_⟩
  · have hproduct : (q.numerator / q.denominator * SCALE).toInt =
        (q.numerator.toInt.tdiv q.denominator.toInt * 1000000).bmod (2 ^ 64) := by
      rw [Int64.toInt_mul, Int64.toInt_div, toInt_SCALE, Int.bmod_mul_bmod]
    rw [reQuant, Int64.toInt_add, hproduct, Int.bmod_add_bmod]
  · have hdivision := Int.tmod_add_mul_tdiv q.numerator.toInt q.denominator.toInt
    have hdivision' : (q.numerator.toInt.tmod q.denominator.toInt : ℚ) +
        q.denominator.toInt * q.numerator.toInt.tdiv q.denominator.toInt = q.numerator.toInt := by
      exact_mod_cast hdivision
    have hsplit : ((q.numerator.toInt.tdiv q.denominator.toInt * 1000000 +
        (quantisedRemainder bits (q.numerator % q.denominator) q.denominator SCALE).toInt : ℤ) : ℚ)
        - secondsExact q =
          (quantisedRemainder bits (q.numerator % q.denominator) q.denominator SCALE).toInt -
            (q.numerator % q.denominator).toInt * SCALE.toInt / q.denominator.toInt := by
      rw [secondsExact, Rational.value, ← hdivision', Int64.toInt_mod, toInt_SCALE]
      push_cast
      field_simp
      ring
    rw [hsplit]
    exact herror

theorem abs_sub_secondsExact_lt_iff (ticks : ℤ) (q : Rational) : |(ticks : ℚ) - secondsExact q| < 1 ↔
    |ticks * q.denominator.toInt - q.numerator.toInt * 1000000| < q.denominator.toInt := by
  have hpos : (0 : ℚ) < q.denominator.toInt := by exact_mod_cast q.denominator_pos
  have hscaled : (ticks : ℚ) - secondsExact q =
      (ticks * q.denominator.toInt - q.numerator.toInt * 1000000) / q.denominator.toInt := by
    rw [secondsExact, Rational.value]
    field_simp
  rw [hscaled, abs_div, abs_of_pos hpos, div_lt_one hpos]
  exact_mod_cast Iff.rfl

variable {q : Rational}

/-- **Never the smallest integer**: this would take an even number to be a product of odd ones, or
seconds beyond the range of integers. -/
theorem ticks_ne_smallest {ticks : ℤ} (herror : |(ticks : ℚ) - secondsExact q| < 1)
    (hrange : q.numerator.toInt = -2 ^ 63 ∨ |q.numerator.toInt| ≤ FSEC_MAX.toInt * q.denominator.toInt) :
    ticks.bmod (2 ^ 64) ≠ -2 ^ 63 := by
  intro hsmallest
  obtain ⟨k, hk⟩ := exists_bmod_eq ticks
  obtain ⟨-, hdenhigh⟩ := representable_toInt q.denominator
  rw [abs_sub_secondsExact_lt_iff, abs_lt] at herror
  have hticks : ticks = 2 ^ 63 * (2 * k - 1) := by omega
  rw [hticks] at herror
  rcases hrange with hmin | hrange
  · have hodd : Odd q.denominator.toInt := by
      rw [← Int.not_even_iff_odd, even_iff_two_dvd]
      intro heven
      have hdvd : (2 : ℤ) ∣ Int.gcd q.numerator.toInt q.denominator.toInt :=
        Int.dvd_coe_gcd (by rw [hmin]; norm_num) heven
      rw [q.reduced] at hdvd
      omega
    have hfactored : 2 ^ 63 * (2 * k - 1) * q.denominator.toInt - q.numerator.toInt * 1000000 =
        2 ^ 63 * ((2 * k - 1) * q.denominator.toInt + 1000000) := by
      rw [hmin]
      ring
    have hproduct : (2 * k - 1) * q.denominator.toInt = -1000000 := by omega
    have hoddProduct : Odd ((2 * k - 1) * q.denominator.toInt) := Odd.mul ⟨k - 1, by ring⟩ hodd
    rw [hproduct] at hoddProduct
    exact absurd hoddProduct (by decide)
  · rw [toInt_FSEC_MAX, abs_le] at hrange
    rcases le_or_gt k 0 with hk0 | hk0
    · nlinarith
    · nlinarith

theorem toInt_magnitude (num : Int64) :
    (if num ≥ 0 then num else -num).toInt = if num.toInt = -2 ^ 63 then -2 ^ 63 else |num.toInt| := by
  obtain ⟨hlow, hhigh⟩ := representable_toInt num
  simp only [Int64.le_iff_toInt_le, Int64.toInt_zero]
  by_cases hnonneg : 0 ≤ num.toInt
  · rw [if_pos hnonneg, if_neg (by omega), abs_of_nonneg hnonneg]
  · rw [if_neg hnonneg, Int64.toInt_neg, abs_of_neg (not_le.mp hnonneg), Int.bmod_def]
    split_ifs <;> omega

theorem rationalToTime_of_large
    (hlarge : FSEC_MAX.toInt * q.denominator.toInt < |q.numerator.toInt|)
    (hne : q.numerator.toInt ≠ -2 ^ 63) :
    (rationalToTime bits q).toInt = if q.numerator.toInt < 0 then -(2 ^ 63 - 1) else 2 ^ 63 - 1 := by
  unfold rationalToTime
  dsimp only
  rw [toInt_magnitude, if_neg hne]
  simp only [Int64.lt_iff_toInt_lt, Int64.toInt_zero]
  split_ifs <;> decide

theorem rationalToTime_of_small
    (hsmall : q.numerator.toInt = -2 ^ 63 ∨ |q.numerator.toInt| ≤ FSEC_MAX.toInt * q.denominator.toInt) :
    rationalToTime bits q = reQuant bits q.numerator q.denominator SCALE := by
  have hpos := q.denominator_pos
  unfold rationalToTime
  dsimp only
  rw [toInt_magnitude, if_neg]
  rw [toInt_FSEC_MAX] at *
  split_ifs <;> omega

/-- Fractional seconds are always right. -/
theorem right_seconds (hbits : 64 ≤ bits) (q : Rational) :
    Within (symmetricLimit (rationalToTime bits q) durationMax) ∧
      (|secondsExact q| ≤ maxTicks →
        |((symmetricLimit (rationalToTime bits q) durationMax).toInt : ℚ) - secondsExact q| < 1) := by
  have hmax := maxTicks_eq
  have hpos := q.denominator_pos
  rw [within_symmetricLimit_iff]
  by_cases hsmall : q.numerator.toInt = -2 ^ 63 ∨ |q.numerator.toInt| ≤ FSEC_MAX.toInt * q.denominator.toInt
  · obtain ⟨ticks, hticks, herror⟩ := reQuant_eq hbits q
    rw [rationalToTime_of_small hsmall, hticks]
    refine ⟨ticks_ne_smallest herror hsmall, fun hlimits => ?_⟩
    rw [abs_le] at hlimits
    have hbounds := abs_lt.mp herror
    have hhigh : (ticks : ℚ) < (maxTicks + 1 : ℤ) := by push_cast; linarith
    have hlow : ((-(maxTicks + 1) : ℤ) : ℚ) < ticks := by push_cast; linarith
    have hhigh' : ticks < maxTicks + 1 := by exact_mod_cast hhigh
    have hlow' : -(maxTicks + 1) < ticks := by exact_mod_cast hlow
    have hrepresentable : Representable ticks := ⟨by omega, by omega⟩
    rw [hrepresentable.bmod] at hticks
    rw [symmetricLimit_of_le (by omega) (by omega), hticks]
    exact herror
  · rw [not_or, not_le] at hsmall
    obtain ⟨hne, hlarge⟩ := hsmall
    rw [rationalToTime_of_large hlarge hne]
    refine ⟨by split_ifs <;> norm_num, fun hlimits => ?_⟩
    -- the proper result is beyond the limits
    have hden : (0 : ℚ) < q.denominator.toInt := by exact_mod_cast hpos
    rw [secondsExact, Rational.value, abs_mul, abs_div, abs_of_pos hden, div_mul_eq_mul_div,
      div_le_iff₀ hden] at hlimits
    have hlarge' : (FSEC_MAX.toInt : ℚ) * q.denominator.toInt <
        |(q.numerator.toInt : ℚ)| := by exact_mod_cast hlarge
    rw [toInt_FSEC_MAX] at hlarge'
    rw [hmax] at hlimits
    norm_num at hlimits hlarge'
    linarith

end Lumiera.Lib.RawTime
