import Lumiera.Base.LowestTerms
import Lumiera.Lib.UtilQuant
import Lumiera.Lib.Time.TimeLimits

/-! # Precise rational arithmetics in 64 bits (`lib/rational.hpp`)

`util::Rat` is `boost::rational<int64_t>`. Its operators cancel common divisors before multiplying,
yet each of the products, and the sum of the numerators, may exceed the range of 64 bits; then the
result is not defined. The guards estimate beforehand whether this may happen, based on the integral
logarithms of numerators and denominators. -/

namespace Lumiera.Lib.RawTime

instance (x : ℤ) : Decidable (Representable x) := inferInstanceAs (Decidable (_ ∧ _))

/-! ## The operators of `boost::rational` -/

/-- A product in 64 bits, unless it overflows. -/
def checkedMul (x y : Int64) : Option Int64 :=
  if Representable (x.toInt * y.toInt) then some (x * y) else none

/-- A sum in 64 bits, unless it overflows. -/
def checkedAdd (x y : Int64) : Option Int64 :=
  if Representable (x.toInt + y.toInt) then some (x + y) else none

/-- The fields of a rational number, as they result from a computation. -/
structure Fraction where
  num : Int64
  den : Int64
  deriving DecidableEq

/-- The number meant. -/
def Fraction.value (r : Fraction) : ℚ := r.num.toInt / r.den.toInt

/-- `rational::operator+=` -/
def rationalSum (a b : Rational) : Option Fraction := do
  let g := gcd a.denominator b.denominator
  let den := a.denominator / g
  let left ← checkedMul a.numerator (b.denominator / g)
  let right ← checkedMul b.numerator den
  let num ← checkedAdd left right
  let g' := gcd num g
  let den' ← checkedMul den (b.denominator / g')
  some ⟨num / g', den'⟩

/-- `rational::operator*=` -/
def rationalProduct (a b : Rational) : Option Fraction := do
  let gcd1 := gcd a.numerator b.denominator
  let gcd2 := gcd b.numerator a.denominator
  let num ← checkedMul (a.numerator / gcd1) (b.numerator / gcd2)
  let den ← checkedMul (a.denominator / gcd2) (b.denominator / gcd1)
  some ⟨num, den⟩

/-! ## The guards -/

/-- `util::can_represent_Product (int64_t, int64_t)` -/
def canRepresentProduct64 (a b : Int64) : Bool :=
  ilog2 63 (abs a).toInt + 1 + (ilog2 63 (abs b).toInt + 1) < 63

/-- `util::can_represent_Product (Rat, Rat)` -/
def canRepresentProduct (a b : Rational) : Bool :=
  canRepresentProduct64 a.numerator b.numerator && canRepresentProduct64 a.denominator b.denominator

/-- `util::can_represent_Sum` -/
def canRepresentSum (a b : Rational) : Bool :=
  canRepresentProduct64 a.numerator b.denominator && canRepresentProduct64 b.numerator a.denominator

/-! ## Checked operations -/

variable {x y z : Int64} {a b : Rational}

theorem checkedMul_eq_some : checkedMul x y = some z ↔ z.toInt = x.toInt * y.toInt := by
  unfold checkedMul
  split_ifs with h
  · rw [Option.some.injEq, ← Int64.toInt_inj, Int64.toInt_mul, h.bmod, eq_comm]
  · constructor
    · intro hnone
      cases hnone
    · intro hz
      rw [← hz] at h
      exact absurd (representable_toInt z) h

theorem checkedAdd_eq_some : checkedAdd x y = some z ↔ z.toInt = x.toInt + y.toInt := by
  unfold checkedAdd
  split_ifs with h
  · rw [Option.some.injEq, ← Int64.toInt_inj, Int64.toInt_add, h.bmod, eq_comm]
  · constructor
    · intro hnone
      cases hnone
    · intro hz
      rw [← hz] at h
      exact absurd (representable_toInt z) h

theorem exists_toInt_eq {n : ℤ} (h : Representable n) : ∃ x : Int64, x.toInt = n :=
  ⟨Int64.ofInt n, by rw [Int64.toInt_ofInt]; exact h.bmod⟩

/-! ## Numerators and denominators -/

theorem Rational.coprime (q : Rational) : Nat.Coprime q.numerator.toInt.natAbs q.denominator.toInt.natAbs :=
  q.reduced

theorem Rational.num_value (q : Rational) : q.value.num = q.numerator.toInt :=
  Rat.num_div_eq_of_coprime q.denominator_pos q.coprime

theorem Rational.den_value (q : Rational) : (q.value.den : ℤ) = q.denominator.toInt :=
  Rat.den_div_eq_of_coprime q.denominator_pos q.coprime

theorem toInt_gcd_of_pos (hpos : 0 < y.toInt) : (gcd x y).toInt = Int.gcd x.toInt y.toInt := by
  have hle : (Int.gcd x.toInt y.toInt : ℤ) ≤ y.toInt := Int.le_of_dvd hpos (Int.gcd_dvd_right ..)
  have hhigh := y.toInt_lt
  rw [gcd, Int64.toInt_ofInt]
  exact Representable.bmod ⟨by omega, by omega⟩

theorem gcd_toInt_eq (hpos : 0 < y.toInt) {m : ℤ} {d : ℕ} (hx : x.toInt = m) (hy : y.toInt = d) :
    (gcd x y).toInt = (Nat.gcd m.natAbs d : ℕ) := by
  rw [toInt_gcd_of_pos hpos, hx, hy]
  rfl

theorem toInt_div_eq {m : ℤ} {d : ℕ} (hd : 0 < d) (hdvd : (d : ℤ) ∣ m) (hx : x.toInt = m) (hy : y.toInt = d) :
    (x / y).toInt = m / d := by
  rw [toInt_div_of_dvd (by rw [hy]; exact_mod_cast hd) (by rw [hx, hy]; exact hdvd), hx, hy]

/-! ## Sums -/

open LowestTerms

/-- **The sum which is computed, and when it is**: the products and the sum of the numerators fit into 64
bits, and so does the denominator of the result. -/
theorem rationalSum_spec (a b : Rational) : (∃ r, rationalSum a b = some r ∧ r.value = a.value + b.value) ↔
    Representable (a.value.num * (b.value.den / Nat.gcd a.value.den b.value.den : ℕ)) ∧
    Representable (b.value.num * (a.value.den / Nat.gcd a.value.den b.value.den : ℕ)) ∧
    Representable (sumNum a.value b.value) ∧ Representable (a.value + b.value).den := by
  have hgPos := gcd_den_pos a.value b.value
  have hg : (gcd a.denominator b.denominator).toInt = (Nat.gcd a.value.den b.value.den : ℕ) :=
    gcd_toInt_eq b.denominator_pos a.den_value.symm b.den_value.symm
  have hden : (a.denominator / gcd a.denominator b.denominator).toInt =
      (a.value.den / Nat.gcd a.value.den b.value.den : ℕ) := by
    rw [toInt_div_eq hgPos (Int.natCast_dvd_natCast.mpr (Nat.gcd_dvd_left ..)) a.den_value.symm hg]
    exact (Int.natCast_ediv ..).symm
  have hden' : (b.denominator / gcd a.denominator b.denominator).toInt =
      (b.value.den / Nat.gcd a.value.den b.value.den : ℕ) := by
    rw [toInt_div_eq hgPos (Int.natCast_dvd_natCast.mpr (Nat.gcd_dvd_right ..)) b.den_value.symm hg]
    exact (Int.natCast_ediv ..).symm
  -- what remains to be cancelled is known once the numerator is
  have hcancel : ∀ num : Int64, num.toInt = sumNum a.value b.value →
      (num / gcd num (gcd a.denominator b.denominator)).toInt = (a.value + b.value).num ∧
      (a.denominator / gcd a.denominator b.denominator).toInt *
        (b.denominator / gcd num (gcd a.denominator b.denominator)).toInt = (a.value + b.value).den := by
    intro num hnum
    obtain ⟨hlowNum, hlowDen⟩ := add_lowest a.value b.value
    have hg' : (gcd num (gcd a.denominator b.denominator)).toInt = sumGcd a.value b.value :=
      gcd_toInt_eq (by rw [hg]; exact_mod_cast hgPos) hnum hg
    have hpos' := sumGcd_pos a.value b.value
    constructor
    · rw [toInt_div_eq hpos' (sumGcd_dvd_num _ _) hnum hg', hlowNum]
    · rw [toInt_div_eq hpos' (Int.natCast_dvd_natCast.mpr (sumGcd_dvd_den _ _)) b.den_value.symm hg', hden,
        hlowDen]
      rfl
  simp only [rationalSum, Option.bind_eq_bind, Option.bind_eq_some_iff, checkedMul_eq_some,
    checkedAdd_eq_some, hden, hden', ← Rational.num_value]
  constructor
  · rintro ⟨r, ⟨left, hleft, right, hright, num, hnum, den, hdenEq, -⟩, -⟩
    rw [hleft, hright] at hnum
    have hsum : num.toInt = sumNum a.value b.value := hnum
    have hdenValue := (hcancel num hsum).2
    rw [hden, ← hdenEq] at hdenValue
    refine ⟨?_, ?_, ?_, ?_⟩
    · rw [← hleft]
      exact representable_toInt left
    · rw [← hright]
      exact representable_toInt right
    · rw [← hsum]
      exact representable_toInt num
    · rw [← hdenValue]
      exact representable_toInt den
  · rintro ⟨hleft, hright, hnum, hdenFits⟩
    obtain ⟨left, hleft⟩ := exists_toInt_eq hleft
    obtain ⟨right, hright⟩ := exists_toInt_eq hright
    obtain ⟨num, hnum⟩ := exists_toInt_eq hnum
    obtain ⟨den, hdenEq⟩ := exists_toInt_eq hdenFits
    obtain ⟨hnumValue, hdenValue⟩ := hcancel num hnum
    refine ⟨_, ⟨left, hleft, right, hright, num, ?_, den, ?_, rfl⟩, ?_⟩
    · rw [hleft, hright]
      exact hnum
    · rw [hdenEq, ← hdenValue, hden]
    · rw [Fraction.value]
      rw [hnumValue, hdenEq]
      exact_mod_cast Rat.num_div_den (a.value + b.value)

/-! ## Products -/

/-- The product which is computed, and when it is: numerator and denominator of the result fit. -/
theorem rationalProduct_spec (a b : Rational) : (∃ r, rationalProduct a b = some r ∧ r.value = a.value * b.value) ↔
    Representable (a.value * b.value).num ∧ Representable (a.value * b.value).den := by
  obtain ⟨hlowNum, hlowDen⟩ := mul_lowest a.value b.value
  have hpos : 0 < Nat.gcd a.value.num.natAbs b.value.den := Nat.gcd_pos_of_pos_right _ b.value.den_pos
  have hpos' : 0 < Nat.gcd b.value.num.natAbs a.value.den := Nat.gcd_pos_of_pos_right _ a.value.den_pos
  have hgcd1 : (gcd a.numerator b.denominator).toInt = (Nat.gcd a.value.num.natAbs b.value.den : ℕ) :=
    gcd_toInt_eq b.denominator_pos a.num_value.symm b.den_value.symm
  have hgcd2 : (gcd b.numerator a.denominator).toInt = (Nat.gcd b.value.num.natAbs a.value.den : ℕ) :=
    gcd_toInt_eq a.denominator_pos b.num_value.symm a.den_value.symm
  have hnum : (a.numerator / gcd a.numerator b.denominator).toInt *
      (b.numerator / gcd b.numerator a.denominator).toInt = (a.value * b.value).num := by
    rw [toInt_div_eq hpos (Int.natCast_dvd.mpr (Nat.gcd_dvd_left ..)) a.num_value.symm hgcd1,
      toInt_div_eq hpos' (Int.natCast_dvd.mpr (Nat.gcd_dvd_left ..)) b.num_value.symm hgcd2, hlowNum]
  have hden : (a.denominator / gcd b.numerator a.denominator).toInt *
      (b.denominator / gcd a.numerator b.denominator).toInt = (a.value * b.value).den := by
    rw [toInt_div_eq hpos' (Int.natCast_dvd_natCast.mpr (Nat.gcd_dvd_right ..)) a.den_value.symm hgcd2,
      toInt_div_eq hpos (Int.natCast_dvd_natCast.mpr (Nat.gcd_dvd_right ..)) b.den_value.symm hgcd1, hlowDen]
    rfl
  simp only [rationalProduct, Option.bind_eq_bind, Option.bind_eq_some_iff, checkedMul_eq_some, hnum, hden]
  constructor
  · rintro ⟨r, ⟨num, hnumEq, den, hdenEq, -⟩, -⟩
    rw [← hnumEq, ← hdenEq]
    exact ⟨representable_toInt num, representable_toInt den⟩
  · rintro ⟨hnumFits, hdenFits⟩
    obtain ⟨num, hnumEq⟩ := exists_toInt_eq hnumFits
    obtain ⟨den, hdenEq⟩ := exists_toInt_eq hdenFits
    refine ⟨_, ⟨num, hnumEq, den, hdenEq, rfl⟩, ?_⟩
    rw [Fraction.value]
    rw [hnumEq, hdenEq]
    exact_mod_cast Rat.num_div_den (a.value * b.value)

/-! ## What the guards tell -/

theorem toInt_abs_of_ne (hx : x.toInt ≠ -2 ^ 63) : (abs x).toInt = |x.toInt| := by
  obtain ⟨hlow, hhigh⟩ := representable_toInt x
  unfold abs
  simp only [Int64.lt_iff_toInt_lt]
  split_ifs with hneg
  · rw [abs_of_neg hneg, Int64.toInt_neg]
    exact Representable.bmod ⟨by omega, by omega⟩
  · rw [abs_of_nonneg (not_lt.mp hneg)]

theorem lt_two_pow_bits (hx : x.toInt ≠ -2 ^ 63) : ∃ k : ℕ, ilog2 63 (abs x).toInt + 1 = k ∧ |x.toInt| < 2 ^ k := by
  obtain ⟨hlow, hhigh⟩ := representable_toInt x
  rw [toInt_abs_of_ne hx]
  have hle : |x.toInt| < 2 ^ 63 := by
    rw [abs_lt]
    exact ⟨by omega, hhigh⟩
  rcases (abs_nonneg x.toInt).eq_or_lt with hzero | hpos
  · refine ⟨0, ?_, ?_⟩
    · rw [← hzero]
      rfl
    · rw [← hzero]
      decide
  · have hwidth := hle.trans (show (2 : ℤ) ^ 63 < 2 ^ (63 + 1) by decide)
    obtain ⟨k, hk, -, hlt⟩ := ilog2_spec hpos (hle.trans (by decide)) hwidth
    exact ⟨k + 1, by rw [hk]; rfl, hlt⟩

/-- The guard leaves room for a sum of two products. -/
theorem canRepresentProduct64_lt (h : canRepresentProduct64 x y = true) (hx : x.toInt ≠ -2 ^ 63)
    (hy : y.toInt ≠ -2 ^ 63) : |x.toInt| * |y.toInt| < 2 ^ 62 := by
  obtain ⟨k, hk, hxLt⟩ := lt_two_pow_bits hx
  obtain ⟨l, hl, hyLt⟩ := lt_two_pow_bits hy
  rw [canRepresentProduct64, decide_eq_true_iff] at h
  calc |x.toInt| * |y.toInt|
      < 2 ^ k * 2 ^ l := mul_lt_mul'' hxLt hyLt (abs_nonneg _) (abs_nonneg _)
    _ = 2 ^ (k + l) := (pow_add 2 k l).symm
    _ ≤ 2 ^ 62 := pow_le_pow_right₀ (by decide) (by omega)

theorem Rational.den_ne_smallest (q : Rational) : q.denominator.toInt ≠ -2 ^ 63 := by
  have hpos := q.denominator_pos
  omega

/-- When the smallest number is an operand, it must stay as it is, and nothing negative is added. -/
def MinimumAbsorbed (a b : Rational) : Prop :=
  a.numerator.toInt = -2 ^ 63 → b.denominator.toInt ∣ a.denominator.toInt ∧ 0 ≤ b.numerator.toInt

theorem products_fit_iff {m n p q : ℤ} (hp : 1 ≤ p) (hq : 1 ≤ q) (hm : m = -2 ^ 63 ∨ |m * p| < 2 ^ 62)
    (hn : n = -2 ^ 63 ∨ |n * q| < 2 ^ 62) :
    Representable (m * p) ∧ Representable (n * q) ∧ Representable (m * p + n * q) ↔
      (m = -2 ^ 63 → p = 1 ∧ 0 ≤ n) ∧ (n = -2 ^ 63 → q = 1 ∧ 0 ≤ m) := by
  simp only [abs_lt] at hm hn
  constructor
  · rintro ⟨⟨hlow, -⟩, ⟨hlow', -⟩, ⟨hlow'', -⟩⟩
    constructor
    · rintro rfl
      obtain rfl : p = 1 := by omega
      refine ⟨rfl, ?_⟩
      by_contra hneg
      nlinarith
    · rintro rfl
      obtain rfl : q = 1 := by omega
      refine ⟨rfl, ?_⟩
      by_contra hneg
      nlinarith
  · rintro ⟨hleft, hright⟩
    rcases hm with rfl | hm
    · obtain ⟨rfl, hnonneg⟩ := hleft rfl
      rcases hn with rfl | hn
      · omega
      · have hprod : 0 ≤ n * q := by positivity
        refine ⟨⟨?_, ?_⟩, ⟨?_, ?_⟩, ?_, ?_⟩ <;> omega
    · rcases hn with rfl | hn
      · obtain ⟨rfl, hnonneg⟩ := hright rfl
        have hprod : 0 ≤ m * p := by positivity
        refine ⟨⟨?_, ?_⟩, ⟨?_, ?_⟩, ?_, ?_⟩ <;> omega
      · refine ⟨⟨?_, ?_⟩, ⟨?_, ?_⟩, ?_, ?_⟩ <;> omega

theorem mul_den_lt {g : ℕ} (h : canRepresentProduct64 a.numerator b.denominator = true)
    (ha : a.numerator.toInt ≠ -2 ^ 63) : |a.value.num * (b.value.den / g : ℕ)| < 2 ^ 62 := by
  have hlt := canRepresentProduct64_lt h ha b.den_ne_smallest
  rw [abs_of_pos b.denominator_pos, ← b.den_value, ← a.num_value] at hlt
  have hle : ((b.value.den / g : ℕ) : ℤ) ≤ b.value.den := by exact_mod_cast Nat.div_le_self ..
  rw [abs_mul, Nat.abs_cast]
  exact (mul_le_mul_of_nonneg_left hle (abs_nonneg _)).trans_lt hlt

theorem div_gcd_eq_one_iff {d d' : ℕ} (hpos : 0 < d') : d' / Nat.gcd d d' = 1 ↔ d' ∣ d := by
  rw [← Nat.gcd_eq_right_iff_dvd]
  constructor
  · intro h
    have hmul := Nat.div_mul_cancel (Nat.gcd_dvd_right d d')
    rw [h, one_mul] at hmul
    exact hmul
  · intro h
    rw [h]
    exact Nat.div_self hpos

/-- **A sum approved by the guard is computed if and only if** the denominator of the result fits: neither
of the products examined is the one of the denominators. -/
theorem rationalSum_of_guard (hguard : canRepresentSum a b = true) :
    (∃ r, rationalSum a b = some r ∧ r.value = a.value + b.value) ↔
      (a.value + b.value).den < 2 ^ 63 ∧ MinimumAbsorbed a b ∧ MinimumAbsorbed b a := by
  rw [canRepresentSum, Bool.and_eq_true] at hguard
  obtain ⟨hguard, hguard'⟩ := hguard
  have hq : 1 ≤ a.value.den / Nat.gcd a.value.den b.value.den :=
    Nat.div_pos (Nat.le_of_dvd a.value.den_pos (Nat.gcd_dvd_left ..)) (gcd_den_pos ..)
  have hp : 1 ≤ b.value.den / Nat.gcd a.value.den b.value.den :=
    Nat.div_pos (Nat.le_of_dvd b.value.den_pos (Nat.gcd_dvd_right ..)) (gcd_den_pos ..)
  have hcover : b.denominator.toInt ∣ a.denominator.toInt ↔
      b.value.den / Nat.gcd a.value.den b.value.den = 1 := by
    rw [div_gcd_eq_one_iff b.value.den_pos, ← a.den_value, ← b.den_value, Int.natCast_dvd_natCast]
  have hcover' : a.denominator.toInt ∣ b.denominator.toInt ↔
      a.value.den / Nat.gcd a.value.den b.value.den = 1 := by
    rw [Nat.gcd_comm, div_gcd_eq_one_iff a.value.den_pos, ← a.den_value, ← b.den_value,
      Int.natCast_dvd_natCast]
  have hsmall : a.value.num = -2 ^ 63 ∨
      |a.value.num * (b.value.den / Nat.gcd a.value.den b.value.den : ℕ)| < 2 ^ 62 := by
    rw [or_iff_not_imp_left, a.num_value]
    intro hne
    rw [← a.num_value]
    exact mul_den_lt hguard hne
  have hsmall' : b.value.num = -2 ^ 63 ∨
      |b.value.num * (a.value.den / Nat.gcd a.value.den b.value.den : ℕ)| < 2 ^ 62 := by
    rw [or_iff_not_imp_left, b.num_value]
    intro hne
    rw [← b.num_value]
    exact mul_den_lt hguard' hne
  have hproducts := products_fit_iff (by exact_mod_cast hp) (by exact_mod_cast hq) hsmall hsmall'
  have hden : Representable (a.value + b.value).den ↔ (a.value + b.value).den < 2 ^ 63 := by
    unfold Representable
    omega
  rw [rationalSum_spec, ← and_assoc, ← and_assoc, and_assoc (a := Representable (_ * _)), sumNum, hproducts,
    hden, and_comm]
  unfold MinimumAbsorbed
  rw [hcover, hcover', a.num_value, b.num_value]
  norm_cast

theorem rationalProduct_of_guard (hguard : canRepresentProduct a b = true) :
    (∃ r, rationalProduct a b = some r ∧ r.value = a.value * b.value) ↔
      Representable (a.value * b.value).num := by
  rw [canRepresentProduct, Bool.and_eq_true] at hguard
  have hlt := canRepresentProduct64_lt hguard.2 a.den_ne_smallest b.den_ne_smallest
  rw [abs_of_pos a.denominator_pos, abs_of_pos b.denominator_pos, ← a.den_value, ← b.den_value] at hlt
  have hle : (a.value * b.value).den ≤ a.value.den * b.value.den :=
    Nat.le_of_dvd (Nat.mul_pos a.value.den_pos b.value.den_pos) (Rat.mul_den_dvd ..)
  have hden : Representable (a.value * b.value).den := by
    exact ⟨by omega, by omega⟩
  rw [rationalProduct_spec, and_iff_left hden]

end Lumiera.Lib.RawTime
