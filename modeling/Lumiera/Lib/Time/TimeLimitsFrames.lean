import Lumiera.Lib.Time.TimeLimits
import Mathlib.Tactic.LinearCombination

/-! # Offsets by a number of frames

There are two products which may wrap: the micro ticks of the frame count, and the numerator of the
quotient by the frame rate. Whatever wraps misses the proper result by far; and nothing limits the
result. -/

namespace Lumiera.Lib.RawTime

/-- The micro ticks of this number of seconds, modulo 2^64. -/
def wrappedTicks (count : Int64) : ℕ := 1000000 * count.toInt.natAbs % 2 ^ 64

/-- The numerator of the quotient by the frame rate, after cancelling. -/
def frameNumerator (count : Int64) (fps : FrameRate) : ℕ :=
  wrappedTicks count / Nat.gcd (wrappedTicks count) fps.numerator.toNat * fps.denominator.toNat

/-- The denominator of the quotient by the frame rate, after cancelling. -/
def frameDenominator (count : Int64) (fps : FrameRate) : ℕ :=
  fps.numerator.toNat / Nat.gcd (wrappedTicks count) fps.numerator.toNat

variable (count : Int64) (fps : FrameRate)

theorem gcd_pos : 0 < Nat.gcd (wrappedTicks count) fps.numerator.toNat :=
  Nat.gcd_pos_of_pos_right _ fps.numerator_pos

theorem frameDenominator_pos : 0 < frameDenominator count fps :=
  Nat.div_pos (Nat.gcd_le_right _ fps.numerator_pos) (gcd_pos count fps)

theorem frameDenominator_lt : frameDenominator count fps < 2 ^ 32 :=
  lt_of_le_of_lt (Nat.div_le_self _ _) fps.numerator.toNat_lt

/-! ## The computation -/

theorem toInt_toInt64 (x : UInt64) : x.toInt64.toInt = (x.toNat : ℤ).bmod (2 ^ 64) := by
  calc x.toInt64.toInt
      = (UInt64.ofNat x.toNat).toInt64.toInt := by rw [UInt64.ofNat_toNat]
    _ = (Int64.ofNat x.toNat).toInt := by rw [UInt64.toInt64_ofNat']
    _ = (x.toNat : ℤ).bmod Int64.size := Int64.toInt_ofNat'
    _ = (x.toNat : ℤ).bmod (2 ^ 64) := by norm_num [Int64.size]

theorem toInt_toInt64_of_lt {x : UInt64} (hlt : x.toNat < 2 ^ 63) : x.toInt64.toInt = x.toNat := by
  rw [toInt_toInt64]
  exact Representable.bmod ⟨by omega, by omega⟩

theorem toNat_abs : (abs count).toUInt64.toNat = count.toInt.natAbs := by
  have hword := toInt_toInt64 (abs count).toUInt64
  have hback : (abs count).toUInt64.toInt64 = abs count := rfl
  have hlt := (abs count).toUInt64.toNat_lt
  obtain ⟨hlow, hhigh⟩ := representable_toInt count
  have habs : (abs count).toInt = (count.toInt.natAbs : ℤ).bmod (2 ^ 64) := by
    unfold abs
    simp only [Int64.lt_iff_toInt_lt, Int64.toInt_zero]
    split_ifs with hneg
    · rw [Int64.toInt_neg]
      congr 1
      omega
    · rw [Representable.bmod ⟨by omega, by omega⟩]
      omega
  rw [hback, habs] at hword
  rw [Int.bmod_def, Int.bmod_def] at hword
  omega

theorem representable_tdiv {a d : ℤ} (ha : Representable a) : 0 < d → Representable (a.tdiv d) := by
  intro hpos
  obtain ⟨hlow, hhigh⟩ := ha
  have hle := Int.natAbs_tdiv_le_natAbs a d
  rcases le_total 0 a with hnonneg | hneg
  · constructor <;> omega
  · have hflip : a.tdiv d = -(-a).tdiv d := by rw [Int.neg_tdiv, neg_neg]
    have := Int.tdiv_nonneg (Int.neg_nonneg_of_nonpos hneg) hpos.le
    constructor <;> omega

/-- What the computation delivers: the quotient of the wrapped numerator. -/
theorem toInt_framecountToTime :
    (framecountToTime (abs count).toUInt64 fps).toInt =
      ((frameNumerator count fps : ℤ).bmod (2 ^ 64)).tdiv (frameDenominator count fps) := by
  have hticks : (SCALE.toUInt64 * (abs count).toUInt64).toNat = wrappedTicks count := by
    rw [UInt64.toNat_mul, toNat_abs]
    rfl
  have hgcdle : Nat.gcd (wrappedTicks count) fps.numerator.toNat < 2 ^ 64 := by
    have hle := Nat.gcd_le_right (wrappedTicks count) fps.numerator_pos
    have hlt := fps.numerator.toNat_lt
    omega
  have hcommon : (ugcd (SCALE.toUInt64 * (abs count).toUInt64) fps.numerator.toUInt64).toNat =
      Nat.gcd (wrappedTicks count) fps.numerator.toNat := by
    rw [ugcd, hticks, UInt32.toNat_toUInt64, UInt64.toNat_ofNat', Nat.mod_eq_of_lt hgcdle]
  have hnum : ∀ x : UInt64, x.toNat = frameNumerator count fps % 2 ^ 64 →
      x.toInt64.toInt = (frameNumerator count fps : ℤ).bmod (2 ^ 64) := by
    intro x hx
    rw [toInt_toInt64, hx, Int.natCast_mod, Int.emod_bmod]
  have hlt := frameDenominator_lt count fps
  have hpos := frameDenominator_pos count fps
  have hden : ∀ x : UInt64, x.toNat = frameDenominator count fps →
      x.toInt64.toInt = frameDenominator count fps := by
    intro x hx
    rw [toInt_toInt64_of_lt (by omega), hx]
  unfold framecountToTime
  rw [Int64.toInt_div, hnum _ ?_, hden _ ?_]
  · exact (representable_tdiv (representable_bmod _) (by exact_mod_cast hpos)).bmod
  · rw [UInt64.toNat_div, hcommon]
    rfl
  · rw [UInt64.toNat_mul, UInt64.toNat_div, hcommon, hticks]
    rfl

/-- The quotient, before the sign is applied. -/
def frameQuotient : ℤ := ((frameNumerator count fps : ℤ).bmod (2 ^ 64)).tdiv (frameDenominator count fps)

theorem representable_frameQuotient : Representable (frameQuotient count fps) :=
  representable_tdiv (representable_bmod _) (by exact_mod_cast frameDenominator_pos count fps)

theorem toInt_offsetFrames : (offsetFrames count fps).toInt =
    if count.toInt < 0 then (-frameQuotient count fps).bmod (2 ^ 64) else frameQuotient count fps := by
  have hquotient : (framecountToTime (abs count).toUInt64 fps).toInt = frameQuotient count fps :=
    toInt_framecountToTime count fps
  unfold offsetFrames
  by_cases hzero : count = 0
  · have hnone : frameQuotient count fps = 0 := by
      have hticks : wrappedTicks 0 = 0 := by
        rw [wrappedTicks, Int64.toInt_zero, Int.natAbs_zero, Nat.zero_mod]
      unfold frameQuotient frameNumerator
      rw [hzero, hticks, Nat.zero_div, Nat.zero_mul, Nat.cast_zero, Int.zero_bmod, Int.zero_tdiv]
    rw [hnone, hzero]
    rfl
  · rw [if_pos hzero]
    simp only [Int64.lt_iff_toInt_lt, Int64.toInt_zero]
    by_cases hneg : count.toInt < 0
    · rw [if_pos hneg, if_pos hneg, Int64.neg_mul, Int64.one_mul, Int64.toInt_neg, hquotient]
    · rw [if_neg hneg, if_neg hneg, Int64.one_mul, hquotient]

/-! ## The exact result -/

/-- No product wraps. -/
def FramesFit : Prop := 1000000 * count.toInt.natAbs < 2 ^ 64 ∧ frameNumerator count fps < 2 ^ 63

/-- A wrapped product makes the numerator too small by a multiple of the range. -/
theorem exists_wrapped_frames : ∃ w : ℤ, 0 ≤ w ∧ (w = 0 ↔ FramesFit count fps) ∧
    (1000000 * count.toInt.natAbs * fps.denominator.toNat : ℤ) =
      Nat.gcd (wrappedTicks count) fps.numerator.toNat * (frameNumerator count fps : ℤ).bmod
        (2 ^ 64) + 2 ^ 64 * w := by
  obtain ⟨k, hk⟩ := exists_bmod_eq (frameNumerator count fps)
  obtain ⟨hlow, hhigh⟩ := representable_bmod (frameNumerator count fps)
  have hgcd := gcd_pos count fps
  have hden := fps.denominator_pos
  have hnumerator : (frameNumerator count fps : ℤ) * Nat.gcd (wrappedTicks count) fps.numerator.toNat =
      wrappedTicks count * fps.denominator.toNat := by
    have hcancel := Nat.div_mul_cancel (Nat.gcd_dvd_left (wrappedTicks count) fps.numerator.toNat)
    rw [frameNumerator]
    rw [Nat.cast_mul, mul_right_comm, ← Nat.cast_mul, hcancel]
  obtain ⟨j, hj⟩ : ∃ j : ℕ, 1000000 * count.toInt.natAbs = wrappedTicks count + 2 ^ 64 * j :=
    ⟨1000000 * count.toInt.natAbs / 2 ^ 64, by rw [wrappedTicks, Nat.mod_add_div]⟩
  have hlt : wrappedTicks count < 2 ^ 64 := Nat.mod_lt _ (by norm_num)
  generalize Nat.gcd (wrappedTicks count) fps.numerator.toNat = common at *
  generalize wrappedTicks count = ticks at *
  rw [hk] at hlow hhigh ⊢
  have hk0 : 0 ≤ k := by omega
  have hmul : 0 ≤ (common : ℤ) * k := mul_nonneg (Int.natCast_nonneg _) hk0
  refine ⟨(j * fps.denominator.toNat : ℕ) + common * k, by omega, ?_, ?_⟩
  · constructor
    · intro hzero
      have hj0 : j * fps.denominator.toNat = 0 := by omega
      have hk0' : (common : ℤ) * k = 0 := by omega
      rcases Nat.mul_eq_zero.mp hj0 with rfl | hbad
      · rcases Int.mul_eq_zero.mp hk0' with hbad | rfl
        · omega
        · exact ⟨by omega, by omega⟩
      · omega
    · rintro ⟨hticks, hnum⟩
      have hj0 : j = 0 := by omega
      have hk0' : k = 0 := by omega
      rw [hj0, hk0', Nat.zero_mul]
      rfl
  · have hj' : (1000000 * count.toInt.natAbs : ℤ) = ticks + 2 ^ 64 * j := by exact_mod_cast hj
    rw [hj']
    push_cast
    linear_combination -hnumerator

theorem abs_tdiv_le_iff {a d m : ℤ} (hpos : 0 < d) (hm : 0 ≤ m) : |a.tdiv d| ≤ m ↔ |a| < (m + 1) * d := by
  lift d to ℕ using hpos.le
  lift m to ℕ using hm
  rw [Int.abs_eq_natAbs, Int.abs_eq_natAbs, Int.natAbs_tdiv]
  have hiff := Nat.div_lt_iff_lt_mul (x := a.natAbs) (y := m + 1) (show 0 < d by omega)
  rw [Nat.lt_succ_iff] at hiff
  exact_mod_cast hiff

/-- **The quotient is right** when nothing wraps and the proper result is within the limits, or by
accident when it is not. -/
theorem right_tdiv_iff (denominator : ℤ) {exact numerator common w : ℤ} (hpos : 0 < denominator)
    (hcommon : 0 < common)
    (hlt : common * denominator < 2 ^ 32) (hw : 0 ≤ w) (hnonneg : 0 ≤ exact)
    (hexact : exact = common * numerator + 2 ^ 64 * w) :
    (|numerator.tdiv denominator| ≤ maxTicks ∧
      (exact ≤ maxTicks * (common * denominator) →
        |numerator.tdiv denominator * (common * denominator) - exact| < common * denominator)) ↔
      if w = 0 then exact < (maxTicks + 1) * (common * denominator)
      else maxTicks * (common * denominator) < exact ∧ |numerator| < (maxTicks + 1) * denominator := by
  have hmax := maxTicks_eq
  have hdivision := Int.tmod_add_mul_tdiv numerator denominator
  have hremainder : |numerator.tmod denominator| < denominator := by
    have heq := Int.natAbs_tmod numerator denominator
    have hlt := Nat.mod_lt numerator.natAbs (show 0 < denominator.natAbs by omega)
    rw [Int.abs_eq_natAbs]
    omega
  have hgap : numerator.tdiv denominator * (common * denominator) - exact =
      -(common * numerator.tmod denominator) - 2 ^ 64 * w := by
    rw [hexact]
    linear_combination common * hdivision
  rw [abs_tdiv_le_iff hpos (by omega)]
  have hcommonRemainder : |common * numerator.tmod denominator| < common * denominator := by
    rw [abs_mul, abs_of_pos hcommon]
    exact mul_lt_mul_of_pos_left hremainder hcommon
  rw [abs_lt] at hcommonRemainder
  split_ifs with hzero
  · subst hzero
    have hnum : 0 ≤ numerator := by
      by_contra hneg
      have := mul_neg_of_pos_of_neg hcommon (not_le.mp hneg)
      omega
    have hscale : numerator < (maxTicks + 1) * denominator ↔ exact < (maxTicks + 1) *
        (common * denominator) := by
      rw [hexact, mul_zero, add_zero, mul_left_comm]
      exact (mul_lt_mul_iff_right₀ hcommon).symm
    rw [abs_of_nonneg hnum, hscale, and_iff_left]
    intro _
    rw [abs_lt]
    omega
  · -- the gap is too large
    constructor
    · rintro ⟨hwithin, hexact'⟩
      refine ⟨?_, hwithin⟩
      by_contra hle
      have := hexact' (by omega)
      rw [abs_lt] at this
      omega
    · rintro ⟨habove, hwithin⟩
      exact ⟨hwithin, fun hle => absurd hle (by omega)⟩

/-- The micro ticks of this number of frames. -/
def framesExact : ℚ := 1000000 * count.toInt * fps.denominator.toNat / fps.numerator.toNat

/-- **When frames are right**: without a wrap, as long as the result is not beyond the limits;
otherwise only when a result beyond the limits happens to wrap into them. -/
def FramesSafe : Prop :=
  (FramesFit count fps ∧
      1000000 * count.toInt.natAbs * fps.denominator.toNat < (maxTicks + 1) * fps.numerator.toNat) ∨
    (¬ FramesFit count fps ∧
      maxTicks * fps.numerator.toNat < 1000000 * count.toInt.natAbs * fps.denominator.toNat ∧
      |(frameNumerator count fps : ℤ).bmod (2 ^ 64)| < (maxTicks + 1) * frameDenominator count fps)

theorem within_offsetFrames_iff : Within (offsetFrames count fps) ↔ |frameQuotient count fps| ≤ maxTicks := by
  obtain ⟨hlow, hhigh⟩ := representable_frameQuotient count fps
  rw [within_iff, toInt_offsetFrames, abs_le]
  split_ifs
  · rw [Int.bmod_def]
    split_ifs <;> omega
  · rfl

theorem abs_offsetFrames_sub (hwithin : |frameQuotient count fps| ≤ maxTicks) :
    |((offsetFrames count fps).toInt : ℚ) - framesExact count fps| =
      |(frameQuotient count fps : ℚ) -
        1000000 * count.toInt.natAbs * fps.denominator.toNat / fps.numerator.toNat| := by
  have hmax := maxTicks_eq
  rw [abs_le] at hwithin
  rw [toInt_offsetFrames, framesExact]
  split_ifs with hneg
  · have hrepresentable : Representable (-frameQuotient count fps) := ⟨by omega, by omega⟩
    have habs : (count.toInt.natAbs : ℚ) = -count.toInt := by
      rw [Nat.cast_natAbs, abs_of_neg hneg, Int.cast_neg]
    rw [hrepresentable.bmod, habs, ← abs_neg]
    push_cast
    congr 1
    ring
  · have habs : (count.toInt.natAbs : ℚ) = count.toInt := by
      rw [Nat.cast_natAbs, abs_of_nonneg (not_lt.mp hneg)]
    rw [habs]

theorem abs_framesExact :
    |framesExact count fps| = 1000000 * count.toInt.natAbs * fps.denominator.toNat / fps.numerator.toNat := by
  have hden : (0 : ℚ) ≤ fps.denominator.toNat := Nat.cast_nonneg _
  have hnum : (0 : ℚ) ≤ fps.numerator.toNat := Nat.cast_nonneg _
  rw [framesExact, abs_div, abs_mul, abs_mul, abs_of_nonneg hden, abs_of_nonneg hnum,
    Nat.cast_natAbs, Int.cast_abs]
  norm_num

/-- Frames are right under this condition, and only then. -/
theorem right_frames_iff :
    (Within (offsetFrames count fps) ∧
      (|framesExact count fps| ≤ maxTicks →
        |((offsetFrames count fps).toInt : ℚ) - framesExact count fps| < 1)) ↔ FramesSafe count fps := by
  obtain ⟨w, hw, hfit, hexact⟩ := exists_wrapped_frames count fps
  have hgcd := gcd_pos count fps
  have hdenominator := frameDenominator_pos count fps
  have hnumlt := fps.numerator.toNat_lt
  have hnumpos : (0 : ℚ) < fps.numerator.toNat := by exact_mod_cast fps.numerator_pos
  have hcancel : (Nat.gcd (wrappedTicks count) fps.numerator.toNat : ℤ) * frameDenominator count fps =
      fps.numerator.toNat := by
    exact_mod_cast Nat.mul_div_cancel' (Nat.gcd_dvd_right (wrappedTicks count) fps.numerator.toNat)
  have hnonneg : (0 : ℤ) ≤ 1000000 * count.toInt.natAbs * fps.denominator.toNat :=
    mul_nonneg (mul_nonneg (by norm_num) (Int.natCast_nonneg _)) (Int.natCast_nonneg _)
  have hiff := right_tdiv_iff (frameDenominator count fps) (by omega) (by omega) (by omega) hw hnonneg
    hexact
  rw [hcancel] at hiff
  have hlimits : |framesExact count fps| ≤ maxTicks ↔
      (1000000 * count.toInt.natAbs * fps.denominator.toNat : ℤ) ≤ maxTicks * fps.numerator.toNat := by
    rw [abs_framesExact, div_le_iff₀ hnumpos, ← Int.cast_le (R := ℚ), Nat.cast_natAbs]
    push_cast
    rfl
  have herror : |frameQuotient count fps| ≤ maxTicks →
      (|((offsetFrames count fps).toInt : ℚ) - framesExact count fps| < 1 ↔
        |frameQuotient count fps * fps.numerator.toNat - 1000000 * count.toInt.natAbs *
          fps.denominator.toNat| <
          (fps.numerator.toNat : ℤ)) := by
    intro hwithin
    rw [abs_offsetFrames_sub count fps hwithin]
    have hscaled : (frameQuotient count fps : ℚ) -
        1000000 * count.toInt.natAbs * fps.denominator.toNat / fps.numerator.toNat =
          (frameQuotient count fps * fps.numerator.toNat -
            1000000 * count.toInt.natAbs * fps.denominator.toNat) / fps.numerator.toNat := by
      field_simp
    rw [hscaled, abs_div, abs_of_pos hnumpos, div_lt_one hnumpos, ← Int.cast_lt (R := ℚ), Nat.cast_natAbs]
    push_cast
    rfl
  have hchoice : FramesSafe count fps ↔
      if w = 0 then
        (1000000 * count.toInt.natAbs * fps.denominator.toNat : ℤ) < (maxTicks + 1) * fps.numerator.toNat
      else maxTicks * fps.numerator.toNat < 1000000 * count.toInt.natAbs * fps.denominator.toNat ∧
        |(frameNumerator count fps : ℤ).bmod (2 ^ 64)| < (maxTicks + 1) * frameDenominator count fps := by
    rw [FramesSafe, ← hfit]
    split_ifs with hzero
    · simp [hzero]
    · simp [hzero]
  rw [hchoice, ← hiff, within_offsetFrames_iff, hlimits]
  exact and_congr_right fun hwithin => imp_congr_right fun _ => herror hwithin

end Lumiera.Lib.RawTime
