import Mathlib.Tactic.FieldSimp
import Mathlib.Tactic.Ring

/-! # Sums and products in lowest terms

Adding fractions, a common divisor of the denominators is cancelled beforehand, and what remains to be
cancelled afterwards is a divisor of it. Multiplying fractions, numerators are cancelled against the
denominators crosswise, and nothing remains to be cancelled. -/

namespace Lumiera.LowestTerms

variable (a b : ℚ)

/-- The numerator of a sum over the common denominator. -/
def sumNum : ℤ :=
  a.num * (b.den / Nat.gcd a.den b.den : ℕ) + b.num * (a.den / Nat.gcd a.den b.den : ℕ)

/-- What remains to be cancelled in a sum. -/
def sumGcd : ℕ := Nat.gcd (sumNum a b).natAbs (Nat.gcd a.den b.den)

theorem sumGcd_dvd_num : (sumGcd a b : ℤ) ∣ sumNum a b :=
  Int.natCast_dvd.mpr (Nat.gcd_dvd_left ..)

theorem sumGcd_dvd_den : sumGcd a b ∣ b.den := (Nat.gcd_dvd_right ..).trans (Nat.gcd_dvd_right ..)

theorem gcd_den_pos : 0 < Nat.gcd a.den b.den := Nat.gcd_pos_of_pos_left _ a.den_pos

theorem sumGcd_pos : 0 < sumGcd a b := Nat.gcd_pos_of_pos_right _ (gcd_den_pos a b)

theorem add_eq_mkRat : a + b = mkRat (sumNum a b) (a.den / Nat.gcd a.den b.den * b.den) := by
  obtain ⟨p, hp⟩ := Nat.gcd_dvd_left a.den b.den
  obtain ⟨q, hq⟩ := Nat.gcd_dvd_right a.den b.den
  have hg := gcd_den_pos a b
  have hquot : a.den / Nat.gcd a.den b.den = p := Nat.div_eq_of_eq_mul_right hg hp
  have hquot' : b.den / Nat.gcd a.den b.den = q := Nat.div_eq_of_eq_mul_right hg hq
  have hpos := a.den_pos
  have hpos' := b.den_pos
  rw [sumNum, hquot, hquot', Rat.mkRat_eq_div]
  conv_lhs => rw [← Rat.num_div_den a, ← Rat.num_div_den b]
  generalize Nat.gcd a.den b.den = g at hp hq hg
  rw [hp] at hpos ⊢
  rw [hq] at hpos' ⊢
  have hp0 : (p : ℚ) ≠ 0 := by
    have := Nat.pos_of_mul_pos_left hpos
    exact_mod_cast this.ne'
  have hq0 : (q : ℚ) ≠ 0 := by
    have := Nat.pos_of_mul_pos_left hpos'
    exact_mod_cast this.ne'
  push_cast
  field_simp

/-- A sum in lowest terms. -/
theorem add_lowest : (a + b).num = sumNum a b / sumGcd a b ∧
    (a + b).den = a.den / Nat.gcd a.den b.den * (b.den / sumGcd a b) := by
  have hgcd : sumGcd a b = Nat.gcd (sumNum a b).natAbs (a.den / Nat.gcd a.den b.den * b.den) :=
    Rat.add.aux a b rfl rfl rfl
  have hpos : a.den / Nat.gcd a.den b.den * b.den ≠ 0 := by
    have hquot : 0 < a.den / Nat.gcd a.den b.den :=
      Nat.div_pos (Nat.le_of_dvd a.den_pos (Nat.gcd_dvd_left ..)) (gcd_den_pos a b)
    exact (Nat.mul_pos hquot b.den_pos).ne'
  rw [add_eq_mkRat a b, Rat.num_mkRat, Rat.den_mkRat, if_neg hpos, if_neg hpos, Nat.gcd_comm, ← hgcd]
  exact ⟨rfl, Nat.mul_div_assoc _ (sumGcd_dvd_den a b)⟩

/-- A product in lowest terms. -/
theorem mul_lowest : (a * b).num = a.num / Nat.gcd a.num.natAbs b.den * (b.num / Nat.gcd b.num.natAbs a.den) ∧
    (a * b).den = a.den / Nat.gcd b.num.natAbs a.den * (b.den / Nat.gcd a.num.natAbs b.den) := by
  have hmul : a * b = Rat.mul a b := rfl
  rw [hmul, Rat.mul]
  constructor
  · show a.num.divExact _ _ * b.num.divExact _ _ = _
    rw [Int.divExact_eq_ediv, Int.divExact_eq_ediv]
  · show a.den.divExact _ _ * b.den.divExact _ _ = _
    rw [Nat.divExact_eq_div, Nat.divExact_eq_div]

end Lumiera.LowestTerms
