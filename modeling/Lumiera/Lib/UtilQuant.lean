import Mathlib.Tactic.Positivity
import Mathlib.Tactic.Ring

/-! # Integral binary logarithm (`lib/util-quant.hpp`)

`ilog2` breaks down a number in a logarithmic search: the larger powers of two are taken away first.
The steps for powers which exceed the width of the type are left out. -/

namespace Lumiera.Lib

/-- One step of the search: the number which remains, and the logarithm found so far. -/
def removePower (maxPow : ℕ) (search : ℤ × ℕ) (pow : ℕ) : ℤ × ℕ :=
  if pow > maxPow then search
  else if search.1 ≥ 2 ^ pow then (search.1 / 2 ^ pow, search.2 + pow)
  else search

/-- `util::ilog2`: the index of the largest bit set, for a type where the index of the highest bit
is `maxPow`; -1 for zero, and for negative numbers. -/
def ilog2 (maxPow : ℕ) (num : ℤ) : ℤ :=
  if num ≤ 0 then -1 else ([32, 16, 8, 4, 2, 1].foldl (removePower maxPow) (num, 0)).2

/-! ## The search -/

variable {maxPow : ℕ} {num : ℤ} {search : ℤ × ℕ}

/-- The number which remains in the course of the search: the powers found so far are taken away, and
it is below a limit. -/
structure Remains (num : ℤ) (limit : ℕ) (search : ℤ × ℕ) : Prop where
  rest_eq : search.1 = num / 2 ^ search.2
  rest_pos : 0 < search.1
  rest_lt : search.1 < 2 ^ limit

theorem Remains.step {pow : ℕ} (h : Remains num (2 * pow) search) (hwidth : search.1 < 2 ^ (maxPow + 1)) :
    Remains num pow (removePower maxPow search pow) ∧ (removePower maxPow search pow).1 ≤ search.1 := by
  obtain ⟨hrest, hpos, hlt⟩ := h
  have hpow : (0 : ℤ) < 2 ^ pow := by positivity
  unfold removePower
  split_ifs with hwide hlarge
  · -- the type has no such bit, thus the number is smaller anyway
    refine ⟨⟨hrest, hpos, hwidth.trans_le ?_⟩, le_refl _⟩
    exact pow_le_pow_right₀ (by decide) hwide
  · refine ⟨⟨?_, ?_, ?_⟩, ?_⟩
    · rw [hrest, Int.ediv_ediv_of_nonneg (by positivity), pow_add]
    · have hone : 1 ≤ search.1 / 2 ^ pow := Int.le_ediv_of_mul_le hpow (by rwa [one_mul])
      omega
    · rw [Int.ediv_lt_iff_lt_mul hpow, ← pow_add, ← two_mul]
      exact hlt
    · exact Int.ediv_le_self _ hpos.le
  · exact ⟨⟨hrest, hpos, not_le.mp hlarge⟩, le_refl _⟩

theorem search_remains (hpos : 0 < num) (hlt : num < 2 ^ 64) (hwidth : num < 2 ^ (maxPow + 1)) :
    Remains num 1 ([32, 16, 8, 4, 2, 1].foldl (removePower maxPow) (num, 0)) := by
  have hstep : ∀ (pow : ℕ) {search : ℤ × ℕ}, Remains num (2 * pow) search ∧ search.1 ≤ num →
      Remains num pow (removePower maxPow search pow) ∧ (removePower maxPow search pow).1 ≤ num := by
    rintro pow search ⟨h, hle⟩
    obtain ⟨hnext, hless⟩ := h.step (hle.trans_lt hwidth)
    exact ⟨hnext, hless.trans hle⟩
  have hstart : Remains num (2 * 32) (num, 0) := ⟨by simp, hpos, hlt⟩
  have h32 := hstep 32 ⟨hstart, le_refl num⟩
  exact (hstep 1 (hstep 2 (hstep 4 (hstep 8 (hstep 16 h32))))).1

/-- The logarithm is right: the number lies between two powers of two. -/
theorem ilog2_spec (hpos : 0 < num) (hlt : num < 2 ^ 64) (hwidth : num < 2 ^ (maxPow + 1)) :
    ∃ k : ℕ, ilog2 maxPow num = k ∧ 2 ^ k ≤ num ∧ num < 2 ^ (k + 1) := by
  obtain ⟨hrest, hrestPos, hrestLt⟩ := search_remains hpos hlt hwidth
  refine ⟨_, if_neg (not_le.mpr hpos), ?_⟩
  generalize ([32, 16, 8, 4, 2, 1].foldl (removePower maxPow) (num, 0)) = found at *
  have hpow : (0 : ℤ) < 2 ^ found.2 := by positivity
  constructor
  · rw [← one_mul ((2 : ℤ) ^ found.2), ← Int.le_ediv_iff_mul_le hpow, ← hrest]
    exact hrestPos
  · rw [pow_succ', ← Int.ediv_lt_iff_lt_mul hpow, ← hrest]
    exact hrestLt

end Lumiera.Lib
