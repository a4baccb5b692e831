import Lumiera.Lib.SafeRational

/-! # Fractional values in the zoom window (`stage/model/zoom-window.hpp`)

The zoom window scales and adds durations by rational arithmetics. Each of these operations has a
direct branch, taken when the guard approves the operands; otherwise the numbers are re-quantised,
which introduces a slight error. The latter branches are computed in floating point and are a
parameter here. -/

namespace Lumiera.Stage.Model.ZoomWindow

open Lib.RawTime

/-- A computation with a slight error, to be used in the danger zone. -/
abbrev Requantised : Type := Rational → Rational → Option Fraction

/-- `ZoomWindow::scaleSafe` -/
def scaleSafe (requantised : Requantised) (duration factor : Rational) : Option Fraction :=
  if canRepresentProduct duration factor then rationalProduct duration factor
  else requantised duration factor

/-- `ZoomWindow::addSafe` -/
def addSafe (requantised : Requantised) (t1 t2 : Rational) : Option Fraction :=
  if canRepresentSum t1 t2 then rationalSum t1 t2
  else requantised t1 t2

/-- **The arithmetics is safe** for a pair of operands: whatever the guards approve is computed without
overflow, and the direct branches deliver the exact result. -/
structure SafelyComputed (requantised : Requantised) (a b : Rational) : Prop where
  sum : canRepresentSum a b = true → ∃ r, rationalSum a b = some r ∧ r.value = a.value + b.value
  product : canRepresentProduct a b = true → ∃ r, rationalProduct a b = some r ∧ r.value = a.value * b.value
  added : canRepresentSum a b = true → ∃ r, addSafe requantised a b = some r ∧ r.value = a.value + b.value
  scaled : canRepresentProduct a b = true →
    ∃ r, scaleSafe requantised a b = some r ∧ r.value = a.value * b.value

/-- **The arithmetics is safe if and only if**, given that the guard approves, the denominator of the sum
fits into 64 bits and the smallest number is not altered by the addition, and the numerator of the
product fits. -/
theorem safelyComputed_iff (requantised : Requantised) (a b : Rational) : SafelyComputed requantised a b ↔
    (canRepresentSum a b = true → (a.value + b.value).den < 2 ^ 63 ∧ MinimumAbsorbed a b ∧ MinimumAbsorbed b a) ∧
    (canRepresentProduct a b = true → Representable (a.value * b.value).num) := by
  constructor
  · rintro ⟨hsum, hproduct, -, -⟩
    exact ⟨fun hguard => (rationalSum_of_guard hguard).mp (hsum hguard),
      fun hguard => (rationalProduct_of_guard hguard).mp (hproduct hguard)⟩
  · rintro ⟨hsum, hproduct⟩
    have hadd := fun hguard => (rationalSum_of_guard hguard).mpr (hsum hguard)
    have hscale := fun hguard => (rationalProduct_of_guard hguard).mpr (hproduct hguard)
    refine ⟨hadd, hscale, fun hguard => ?_, fun hguard => ?_⟩
    · rw [addSafe, if_pos hguard]
      exact hadd hguard
    · rw [scaleSafe, if_pos hguard]
      exact hscale hguard

/-- The inverse of 2^40. -/
def fine : Rational := ⟨1, 1099511627776, by decide, by decide⟩

/-- The inverse of the next larger number. -/
def finer : Rational := ⟨1, 1099511627777, by decide, by decide⟩

/-- The guard approves to add two tiny fractions, but their common denominator has 81 bits. -/
theorem not_safelyComputed_fine : canRepresentSum fine finer = true ∧ rationalSum fine finer = none ∧
    ∀ requantised : Requantised, ¬ SafelyComputed requantised fine finer := by
  have hguard : canRepresentSum fine finer = true := by decide
  have hnone : rationalSum fine finer = none := by decide
  refine ⟨hguard, hnone, fun requantised h => ?_⟩
  obtain ⟨r, hsome, -⟩ := h.sum hguard
  cases hsome

end Lumiera.Stage.Model.ZoomWindow
