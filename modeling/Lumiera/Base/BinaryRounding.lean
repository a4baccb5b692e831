import Mathlib.Data.Int.Log
import Mathlib.Data.Rat.Floor
import Mathlib.Tactic.Positivity

/-! # Rounding to a number of significant bits

Binary floating point arithmetic computes the exact result and rounds it to the nearest number with
`p` significant bits, ties to even; there are no limits for the exponent here. The error is at most
half a unit in the last place, and a number close enough to an integer is rounded to this integer.
-/

namespace Lumiera

/-- The nearest integer, ties to even. -/
def nearestEven (x : ℚ) : ℤ :=
  let low := ⌊x⌋
  if x - low < 1 / 2 then low
  else if 1 / 2 < x - low then low + 1
  else if low % 2 = 0 then low else low + 1

theorem nearestEven_error (x : ℚ) : |(nearestEven x : ℚ) - x| ≤ 1 / 2 := by
  have hlow := Int.floor_le x
  have hhigh := Int.lt_floor_add_one x
  unfold nearestEven
  rw [abs_le]
  dsimp only
  split_ifs <;> constructor <;> push_cast <;> linarith

theorem floor_le_nearestEven (x : ℚ) : ⌊x⌋ ≤ nearestEven x := by
  unfold nearestEven
  dsimp only
  split_ifs <;> omega

variable {n : ℤ}

theorem lt_nearestEven {x : ℚ} (h : n + 1 / 2 < x) : n < nearestEven x := by
  have herror := nearestEven_error x
  rw [abs_le] at herror
  have hlt : (n : ℚ) < nearestEven x := by linarith
  exact_mod_cast hlt

theorem nearestEven_eq_of_near {x : ℚ} (h : |(n : ℚ) - x| < 1 / 2) : nearestEven x = n := by
  have herror := nearestEven_error x
  rw [abs_le] at herror
  rw [abs_lt] at h
  have hlow : ((nearestEven x - n : ℤ) : ℚ) < 1 := by push_cast; linarith
  have hhigh : (-1 : ℚ) < ((nearestEven x - n : ℤ) : ℚ) := by push_cast; linarith
  have h1 : nearestEven x - n < 1 := by exact_mod_cast hlow
  have h2 : -1 < nearestEven x - n := by exact_mod_cast hhigh
  omega

/-- The unit in the last place, for a positive number with `p` significant bits. -/
def ulp (p : ℕ) (x : ℚ) : ℚ := 2 ^ (Int.log 2 x + 1 - p)

/-- A number which is not negative, rounded to `p` significant bits. -/
def roundMagnitude (p : ℕ) (x : ℚ) : ℚ := if x = 0 then 0 else nearestEven (x / ulp p x) * ulp p x

/-- **Rounding to `p` significant bits**, for both signs alike. -/
def roundBits (p : ℕ) (x : ℚ) : ℚ := if x < 0 then -roundMagnitude p (-x) else roundMagnitude p x

variable {p : ℕ} {x : ℚ}

theorem ulp_pos (p : ℕ) (x : ℚ) : 0 < ulp p x := by
  exact zpow_pos two_pos _

theorem ulp_le (hx : 0 < x) : ulp p x / 2 ≤ x / 2 ^ p := by
  have hlog := Int.zpow_log_le_self one_lt_two hx
  have heq : ulp p x / 2 = 2 ^ Int.log 2 x / 2 ^ p := by
    rw [ulp, zpow_sub₀ two_ne_zero, zpow_add_one₀ two_ne_zero, zpow_natCast]
    ring
  rw [heq]
  exact div_le_div_of_nonneg_right (by exact_mod_cast hlog) (by positivity)

theorem lt_ulp (p : ℕ) (x : ℚ) : x / 2 ^ p < ulp p x := by
  have hlog := Int.lt_zpow_succ_log_self one_lt_two x
  have heq : ulp p x = 2 ^ (Int.log 2 x + 1) / 2 ^ p := by
    rw [ulp, zpow_sub₀ two_ne_zero, zpow_natCast]
  rw [heq]
  exact div_lt_div_of_pos_right (by exact_mod_cast hlog) (by positivity)

theorem roundMagnitude_error (hx : 0 ≤ x) : |roundMagnitude p x - x| ≤ x / 2 ^ p := by
  by_cases hzero : x = 0
  · simp [roundMagnitude, hzero]
  · have hpos : 0 < x := lt_of_le_of_ne hx (Ne.symm hzero)
    have hulp := ulp_pos p x
    have herror := nearestEven_error (x / ulp p x)
    have hscaled : roundMagnitude p x - x = ((nearestEven (x / ulp p x) : ℚ) - x / ulp p x) * ulp p x := by
      rw [roundMagnitude, if_neg hzero]
      field_simp
    calc |roundMagnitude p x - x|
        = |(nearestEven (x / ulp p x) : ℚ) - x / ulp p x| * ulp p
          x := by rw [hscaled, abs_mul, abs_of_pos hulp]
      _ ≤ 1 / 2 * ulp p x := mul_le_mul_of_nonneg_right herror hulp.le
      _ = ulp p x / 2 := by ring
      _ ≤ x / 2 ^ p := ulp_le hpos

/-- The error of rounding is at most half a unit in the last place. -/
theorem roundBits_error (p : ℕ) (x : ℚ) : |roundBits p x - x| ≤ |x| / 2 ^ p := by
  unfold roundBits
  split_ifs with hneg
  · have hmag := roundMagnitude_error (p := p) (le_of_lt (neg_pos.mpr hneg))
    rw [abs_of_neg hneg, ← abs_neg]
    have heq : -(-roundMagnitude p (-x) - x) = roundMagnitude p (-x) - -x := by ring
    rw [heq]
    exact hmag
  · rw [abs_of_nonneg (not_lt.mp hneg)]
    exact roundMagnitude_error (not_lt.mp hneg)

theorem roundBits_neg (p : ℕ) (x : ℚ) : roundBits p (-x) = -roundBits p x := by
  unfold roundBits
  rcases lt_trichotomy x 0 with hneg | rfl | hpos
  · rw [if_pos hneg, if_neg (by linarith), neg_neg]
  · simp [roundMagnitude]
  · rw [if_pos (by linarith), if_neg (by linarith), neg_neg]

theorem exists_div_ulp (n : ℤ) (hx : 0 < x) (hlt : x < 2 ^ p) : ∃ m : ℤ, (n : ℚ) / ulp p x = m := by
  have hlog : Int.log 2 x < p := by
    rw [← Int.lt_zpow_iff_log_lt one_lt_two hx]
    exact_mod_cast hlt
  obtain ⟨k, hk⟩ : ∃ k : ℕ, (k : ℤ) = p - (Int.log 2 x + 1) := ⟨(p - (Int.log 2 x + 1)).toNat, by omega⟩
  refine ⟨n * 2 ^ k, ?_⟩
  have hulp : ulp p x = (2 ^ k)⁻¹ := by
    rw [ulp, ← zpow_natCast, ← zpow_neg]
    congr 1
    omega
  rw [hulp, div_inv_eq_mul]
  push_cast
  ring

/-- What is not below an integer, or only by very little, is not below it after rounding. -/
theorem le_roundBits (hx : 0 < x) (hlt : x < 2 ^ p) (hnear : n ≤ x + x / 2 ^ p / 4) : (n : ℚ) ≤ roundBits p x := by
  obtain ⟨m, hm⟩ := exists_div_ulp n hx hlt
  have hulp := ulp_pos p x
  have hround : roundBits p x = nearestEven (x / ulp p x) * ulp p x := by
    rw [roundBits, if_neg (not_lt.mpr hx.le), roundMagnitude, if_neg hx.ne']
  have hn : (n : ℚ) = m * ulp p x := by
    rw [← hm]
    field_simp
  have hmle : m ≤ nearestEven (x / ulp p x) := by
    by_cases hle : (n : ℚ) ≤ x
    · refine le_trans (Int.le_floor.mpr ?_) (floor_le_nearestEven _)
      rw [← hm]
      exact div_le_div_of_nonneg_right hle hulp.le
    · -- the integer is nearer than half a unit
      apply le_of_eq
      symm
      apply nearestEven_eq_of_near
      have hgap : (n : ℚ) - x < ulp p x / 2 := by
        have := lt_ulp p x
        linarith
      rw [← hm, ← sub_div, abs_of_pos (div_pos (by linarith) hulp), div_lt_iff₀ hulp]
      linarith
  rw [hround, hn]
  exact mul_le_mul_of_nonneg_right (by exact_mod_cast hmle) hulp.le

theorem roundBits_natCast {n : ℕ} (hlt : n < 2 ^ p) : roundBits p n = n := by
  rcases Nat.eq_zero_or_pos n with rfl | hpos
  · simp [roundBits, roundMagnitude]
  · have hx : (0 : ℚ) < n := by exact_mod_cast hpos
    obtain ⟨m, hm⟩ := exists_div_ulp (n : ℤ) hx (by exact_mod_cast hlt : (n : ℚ) < 2 ^ p)
    have hulp := ulp_pos p (n : ℚ)
    rw [roundBits, if_neg (not_lt.mpr hx.le), roundMagnitude, if_neg hx.ne']
    have hm' : (n : ℚ) / ulp p n = m := by exact_mod_cast hm
    rw [hm', nearestEven_eq_of_near (n := m) (by simp), ← hm']
    field_simp

theorem roundBits_intCast (hlt : n.natAbs < 2 ^ p) : roundBits p n = n := by
  obtain ⟨m, rfl | rfl⟩ := n.eq_nat_or_neg
  · exact_mod_cast roundBits_natCast (by simpa using hlt)
  · push_cast
    rw [roundBits_neg, roundBits_natCast (by simpa using hlt)]

/-! ## Positive numbers -/

theorem roundBits_bounds (p : ℕ) (hx : 0 ≤ x) :
    x * (1 - 1 / 2 ^ p) ≤ roundBits p x ∧ roundBits p x ≤ x * (1 + 1 / 2 ^ p) := by
  have herror := roundBits_error p x
  rw [abs_of_nonneg hx, abs_le] at herror
  have hscaled : x * (1 / 2 ^ p) = x / 2 ^ p := mul_one_div x (2 ^ p)
  constructor <;> linarith

theorem one_add_ulp_le_roundBits {z : ℚ} (hp : 0 < p) (hlow : 1 / 2 ^ p < z) (hhigh : z < 1) :
    1 + 2 / 2 ^ p ≤ roundBits p (1 + z) := by
  have hz : 0 < z := lt_trans (by positivity) hlow
  have hlog : Int.log 2 (1 + z) = 0 := by
    apply le_antisymm
    · rw [← Int.lt_add_one_iff, ← Int.lt_zpow_iff_log_lt one_lt_two (by linarith)]
      norm_num
      linarith
    · rw [← Int.zpow_le_iff_le_log one_lt_two (by linarith)]
      linarith
  have hulp : ulp p (1 + z) = 2 / 2 ^ p := by
    rw [ulp, hlog, zpow_sub₀ two_ne_zero, zpow_natCast, zero_add, zpow_one]
  obtain ⟨k, rfl⟩ : ∃ k, p = k + 1 := ⟨p - 1, by omega⟩
  have hscaled : ((2 ^ k : ℤ) : ℚ) + 1 / 2 < (1 + z) / (2 / 2 ^ (k + 1)) := by
    rw [div_lt_iff₀ (by positivity)] at hlow
    rw [pow_succ] at hlow ⊢
    field_simp
    push_cast
    linarith
  have hround : ((2 ^ k + 1 : ℤ) : ℚ) ≤ nearestEven ((1 + z) / (2 / 2 ^ (k + 1))) := by
    exact_mod_cast lt_nearestEven hscaled
  rw [roundBits, if_neg (by linarith), roundMagnitude, if_neg (by linarith), hulp]
  calc 1 + 2 / 2 ^ (k + 1)
      = ((2 ^ k + 1 : ℤ) : ℚ) * (2 / 2 ^ (k + 1)) := by
        push_cast
        rw [pow_succ]
        field_simp
    _ ≤ nearestEven ((1 + z) / (2 / 2 ^ (k + 1))) * (2 / 2 ^ (k + 1)) :=
        mul_le_mul_of_nonneg_right hround (by positivity)

end Lumiera
