import Mathlib.Data.Rat.Floor
import Lumiera.Lib.UtilQuant

/-! # Drawing limited values at random (`lib/random-draw.hpp`)

A `RandomDraw` maps a value drawn from some source of randomness to a number within limits. The
target type `Limited` confines its values by itself; within this range, the limits and the
probability to get anything else than the neutral value can be configured by builder functions.
Floating point numbers are taken as exact rational numbers here, while whole numbers are computed in the
base type of the target. -/

namespace Lumiera.Lib

/-! ## The base type -/

/-- A type of whole numbers with the given number of bits. -/
structure BaseType where
  bits : ℕ
  signed : Bool
  deriving DecidableEq, Repr

namespace BaseType

variable (b : BaseType)

def lowest : ℤ := if b.signed then -2 ^ (b.bits - 1) else 0

def highest : ℤ := if b.signed then 2 ^ (b.bits - 1) - 1 else 2 ^ b.bits - 1

/-- The type used to compute: smaller ones are promoted to `int`. -/
def promoted : BaseType := if b.bits < 32 then ⟨32, true⟩ else b

/-- A number which is out of range wraps around; this is also what happens with signed numbers. -/
def wrap (x : ℤ) : ℤ := b.lowest + (x - b.lowest) % 2 ^ b.bits

end BaseType

/-! ## The target type -/

/-- `Limited<T,max,min,zero>`, with the base type `T`. A larger distance between the limits is rejected by
the compiler. -/
structure Limited where
  base : BaseType
  min : ℤ
  max : ℤ
  zero : ℤ
  min_lt_max : min < max
  min_le_zero : min ≤ zero
  zero_lt_max : zero < max
  lowest_le : base.lowest ≤ min
  le_highest : max ≤ base.highest
  distance_lt : max - min < 2 ^ 28

namespace Limited

/-- The constructor confines the value to the limits. -/
def confined (T : Limited) (raw : ℤ) : ℤ := Min.min (Max.max raw T.min) T.max

/-- `--m` on the value embedded; the lowest number of the base type wraps around. -/
def decrement (T : Limited) (m : ℤ) : ℤ := if m = T.base.lowest then T.base.highest else m - 1

/-- `++m` on the value embedded. -/
def increment (T : Limited) (m : ℤ) : ℤ := if m = T.base.highest then T.base.lowest else m + 1

/-- The result of a computation with numbers of the base type. -/
def computed (T : Limited) (x : ℤ) : ℤ := T.base.promoted.wrap x

/-- `1 << n`, as a number of type `int` which is converted to `size_t`. -/
def shiftOne (n : ℕ) : ℕ := if n = 31 then 2 ^ 64 - 2 ^ 31 else 2 ^ n

/-- `QUANTISER`: the number of different values drawn from a hash. -/
def quantiser (T : Limited) : ℕ := shiftOne (4 + (ilog2 63 (T.max - T.min)).toNat)

/-- `CAP_EPSILON` -/
def capEpsilon (T : Limited) : ℚ := 1 / (2 * T.quantiser)

end Limited

/-! ## Configuration -/

/-- `RandomDraw`, for a target type. -/
structure RandomDraw (T : Limited) where
  maxResult : ℤ
  minResult : ℤ
  probability : ℚ
  shuffle : ℕ

namespace RandomDraw

variable {T : Limited}

/-- The constructors: drawing is disabled by default, yet enabled when a mapping function is given. -/
def construct (T : Limited) (mapped : Bool) : RandomDraw T where
  maxResult := T.max
  minResult := T.min
  probability := if mapped then 1 else 0
  shuffle := 0

/-- `RandomDraw::probability` -/
def setProbability (p : ℚ) (draw : RandomDraw T) : RandomDraw T :=
  { draw with probability := min (max p 0) 1 }

mutual

/-- `RandomDraw::maxVal`, with a bound for the number of nested calls. -/
def maxVal : ℕ → ℤ → RandomDraw T → Option (RandomDraw T)
  | 0, _, _ => none
  | calls + 1, m, draw =>
    let draw := { draw with maxResult := min m T.max }
    if draw.minResult ≥ draw.maxResult then minVal calls (T.confined (T.decrement m)) draw else some draw

/-- `RandomDraw::minVal`, with a bound for the number of nested calls. -/
def minVal : ℕ → ℤ → RandomDraw T → Option (RandomDraw T)
  | 0, _, _ => none
  | calls + 1, m, draw =>
    let draw := { draw with minResult := max m T.min }
    if draw.maxResult ≤ draw.minResult then maxVal calls (T.confined (T.increment m)) draw else some draw

end

/-- The builder functions; the numbers given are converted to the target type. -/
inductive Call
  | probability (p : ℚ)
  | maxVal (m : ℤ)
  | minVal (m : ℤ)
  | shuffle (seed : ℕ)

/-- The effect of a builder function. -/
def perform (calls : ℕ) (draw : RandomDraw T) : Call → Option (RandomDraw T)
  | .probability p => some (draw.setProbability p)
  | .maxVal m => maxVal calls (T.confined m) draw
  | .minVal m => minVal calls (T.confined m) draw
  | .shuffle seed => some { draw with shuffle := seed }

/-- **A configuration is built**: each of the calls returns, from the construction up to this one. -/
inductive Configured (T : Limited) : List Call → RandomDraw T → Prop
  | construct (mapped : Bool) : Configured T [] (construct T mapped)
  | call {calls : List Call} {draw draw' : RandomDraw T} {next : Call} (bound : ℕ) :
      Configured T calls draw → perform bound draw next = some draw' → Configured T (calls ++ [next]) draw'

/-! ## Drawing -/

/-- `RandomDraw::limited` -/
def limited (draw : RandomDraw T) (val : ℚ) : ℤ :=
  if draw.probability = 0 then T.zero
  else
    let q := 1 - draw.probability
    -- control probability of values ≠ neutral
    if val < q then T.zero
    else
      let val := ((if val > 1 then 1 else val) - q) / draw.probability
      if T.zero = draw.minResult then
        T.confined ⌊val * T.computed (draw.maxResult - T.zero) + T.computed (T.zero + 1) + T.capEpsilon⌋
      else if T.zero < draw.minResult ∨ T.zero > draw.maxResult then
        T.confined ⌊val * T.computed (T.computed (draw.maxResult - draw.minResult) + 1) + draw.minResult
          + T.capEpsilon⌋
      else
        let val := val * T.computed (draw.maxResult - draw.minResult) + T.computed (T.zero + 1)
        let next := T.computed (draw.maxResult + 1)
        -- wrap the "negatives"
        let val := if val ≥ next then val - T.computed (next - draw.minResult) else val
        T.confined ⌊val + T.capEpsilon⌋

/-! ## What is expected -/

/-- A builder function which never returns: the limits of the type are those of its base type, and the
limit requested is the opposite one. -/
def Endless (T : Limited) : Call → Prop
  | .maxVal m => T.min = T.base.lowest ∧ T.max = T.base.highest ∧ T.confined m = T.min
  | .minVal m => T.min = T.base.lowest ∧ T.max = T.base.highest ∧ T.confined m = T.max
  | _ => False

/-- The position of the value drawn, within those which do not give the neutral value. -/
def position (draw : RandomDraw T) (val : ℚ) : ℚ :=
  ((if val > 1 then 1 else val) - (1 - draw.probability)) / draw.probability

/-- A configuration with limits in order. -/
structure Valid (draw : RandomDraw T) : Prop where
  min_le : T.min ≤ draw.minResult
  lt : draw.minResult < draw.maxResult
  le_max : draw.maxResult ≤ T.max
  probability_nonneg : 0 ≤ draw.probability
  probability_le : draw.probability ≤ 1

theorem confined_bounds (T : Limited) (raw : ℤ) : T.min ≤ T.confined raw ∧ T.confined raw ≤ T.max := by
  have hlt := T.min_lt_max
  unfold Limited.confined
  omega

theorem confined_eq {raw : ℤ} (hlow : T.min ≤ raw) (hhigh : raw ≤ T.max) : T.confined raw = raw := by
  unfold Limited.confined
  omega

theorem valid_construct (T : Limited) (mapped : Bool) : (construct T mapped).Valid := by
  refine ⟨le_refl _, T.min_lt_max, le_refl _, ?_, ?_⟩ <;> cases mapped <;> simp [construct]

variable {draw draw' : RandomDraw T} {m : ℤ} {bound : ℕ}

theorem valid_of_nested (hp : 0 ≤ draw.probability) (hp' : draw.probability ≤ 1) (hm : T.min ≤ m ∧ m ≤ T.max) :
    (T.min ≤ draw.minResult → maxVal bound m draw = some draw' → draw'.Valid) ∧
    (draw.maxResult ≤ T.max → minVal bound m draw = some draw' → draw'.Valid) := by
  induction bound generalizing m draw with
  | zero =>
    constructor <;> intro _ h <;> cases h
  | succ bound ih =>
    constructor
    · intro hmin h
      rw [maxVal, min_eq_left hm.2] at h
      split_ifs at h with hge
      · refine (ih ?_ ?_ (confined_bounds T _)).2 ?_ h
        exacts [hp, hp', hm.2]
      · cases h
        exact ⟨hmin, not_le.mp hge, hm.2, hp, hp'⟩
    · intro hmax h
      rw [minVal, max_eq_left hm.1] at h
      split_ifs at h with hle
      · refine (ih ?_ ?_ (confined_bounds T _)).1 ?_ h
        exacts [hp, hp', hm.1]
      · cases h
        exact ⟨hm.1, not_le.mp hle, hmax, hp, hp'⟩

theorem maxVal_returns (hm : T.min < m) (hm' : m ≤ T.max) : ∃ draw', maxVal 2 m draw = some draw' := by
  have hdecrement : T.confined (T.decrement m) = m - 1 := by
    have hlowest := T.lowest_le
    rw [Limited.decrement, if_neg (by omega), confined_eq (by omega) (by omega)]
  rw [maxVal]
  split_ifs with hge
  · rw [minVal]
    dsimp only
    rw [if_neg (by omega)]
    exact ⟨_, rfl⟩
  · exact ⟨_, rfl⟩

theorem minVal_returns (hm : T.min ≤ m) (hm' : m < T.max) : ∃ draw', minVal 2 m draw = some draw' := by
  have hincrement : T.confined (T.increment m) = m + 1 := by
    have hhighest := T.le_highest
    rw [Limited.increment, if_neg (by omega), confined_eq (by omega) (by omega)]
  rw [minVal]
  split_ifs with hle
  · rw [maxVal]
    dsimp only
    rw [if_neg (by omega)]
    exact ⟨_, rfl⟩
  · exact ⟨_, rfl⟩

theorem never_returns (hmin : T.min = T.base.lowest) (hmax : T.max = T.base.highest) (bound : ℕ) :
    (T.min ≤ draw.minResult → maxVal bound T.min draw = none) ∧
    (draw.maxResult ≤ T.max → minVal bound T.max draw = none) := by
  have hlt := T.min_lt_max
  have hdecrement : T.confined (T.decrement T.min) = T.max := by
    rw [Limited.decrement, if_pos hmin, ← hmax, confined_eq hlt.le (le_refl _)]
  have hincrement : T.confined (T.increment T.max) = T.min := by
    rw [Limited.increment, if_pos hmax, ← hmin, confined_eq (le_refl _) hlt.le]
  induction bound generalizing draw with
  | zero => exact ⟨fun _ => rfl, fun _ => rfl⟩
  | succ bound ih =>
    constructor
    · intro h
      rw [maxVal, hdecrement, min_eq_left hlt.le]
      rw [if_pos h]
      exact ih.2 hlt.le
    · intro h
      rw [minVal, hincrement, max_eq_left hlt.le]
      rw [if_pos h]
      exact ih.1 hlt.le

theorem maxVal_min_returns (hmin : T.min ≤ draw.minResult) (hroom : ¬ (T.min = T.base.lowest ∧ T.max = T.base.highest)) :
    ∃ bound draw', maxVal bound T.min draw = some draw' := by
  have hlt := T.min_lt_max
  have hhighest := T.le_highest
  by_cases hlow : T.min = T.base.lowest
  · -- wraps around to the upper limit, where there is room above
    have hdecrement : T.confined (T.decrement T.min) = T.max := by
      rw [Limited.decrement]
      unfold Limited.confined
      omega
    have hincrement : T.confined (T.increment T.max) = T.max := by
      rw [Limited.increment]
      unfold Limited.confined
      omega
    refine ⟨4, ?_⟩
    rw [maxVal, hdecrement, min_eq_left hlt.le]
    rw [if_pos hmin, minVal, hincrement, max_eq_left hlt.le]
    rw [if_pos hlt.le]
    exact maxVal_returns hlt (le_refl _)
  · have hdecrement : T.confined (T.decrement T.min) = T.min := by
      rw [Limited.decrement]
      unfold Limited.confined
      omega
    refine ⟨3, ?_⟩
    rw [maxVal, hdecrement, min_eq_left hlt.le]
    rw [if_pos hmin]
    exact minVal_returns (le_refl _) hlt

theorem minVal_max_returns (hmax : draw.maxResult ≤ T.max) (hroom : ¬ (T.min = T.base.lowest ∧ T.max = T.base.highest)) :
    ∃ bound draw', minVal bound T.max draw = some draw' := by
  have hlt := T.min_lt_max
  have hlowest := T.lowest_le
  by_cases hhigh : T.max = T.base.highest
  · -- wraps around to the lower limit, where there is room below
    have hincrement : T.confined (T.increment T.max) = T.min := by
      rw [Limited.increment]
      unfold Limited.confined
      omega
    have hdecrement : T.confined (T.decrement T.min) = T.min := by
      rw [Limited.decrement]
      unfold Limited.confined
      omega
    refine ⟨4, ?_⟩
    rw [minVal, hincrement, max_eq_left hlt.le]
    rw [if_pos hmax, maxVal, hdecrement, min_eq_left hlt.le]
    rw [if_pos hlt.le]
    exact minVal_returns (le_refl _) hlt
  · have hincrement : T.confined (T.increment T.max) = T.max := by
      rw [Limited.increment]
      unfold Limited.confined
      omega
    refine ⟨3, ?_⟩
    rw [minVal, hincrement, max_eq_left hlt.le]
    rw [if_pos hmax]
    exact maxVal_returns hlt (le_refl _)

/-- A builder function returns unless it is endless, and then the limits are in order. -/
theorem perform_spec (h : draw.Valid) (next : Call) :
    ((∃ bound draw', perform bound draw next = some draw') ↔ ¬ Endless T next) ∧
    ∀ bound draw', perform bound draw next = some draw' → draw'.Valid := by
  cases next with
  | probability p =>
    refine ⟨⟨fun _ => not_false, fun _ => ⟨0, _, rfl⟩⟩, fun bound draw' heq => ?_⟩
    cases heq
    refine ⟨h.min_le, h.lt, h.le_max, ?_, ?_⟩
    · exact le_min (le_max_right _ _) zero_le_one
    · exact min_le_right _ _
  | maxVal m =>
    have hm := confined_bounds T m
    refine ⟨⟨?_, ?_⟩, fun bound draw' heq => ?_⟩
    · rintro ⟨bound, draw', heq⟩ ⟨hmin, hmax, hend⟩
      rw [perform, hend, (never_returns hmin hmax bound).1 h.min_le] at heq
      cases heq
    · intro hend
      by_cases hlow : T.confined m = T.min
      · obtain ⟨bound, hreturns⟩ := maxVal_min_returns h.min_le
          fun ⟨hmin, hmax⟩ => hend ⟨hmin, hmax, hlow⟩
        exact ⟨bound, by rw [perform, hlow]; exact hreturns⟩
      · exact ⟨2, maxVal_returns (by omega) hm.2⟩
    · exact (valid_of_nested h.probability_nonneg h.probability_le hm).1 h.min_le heq
  | minVal m =>
    have hm := confined_bounds T m
    refine ⟨⟨?_, ?_⟩, fun bound draw' heq => ?_⟩
    · rintro ⟨bound, draw', heq⟩ ⟨hmin, hmax, hend⟩
      rw [perform, hend, (never_returns hmin hmax bound).2 h.le_max] at heq
      cases heq
    · intro hend
      by_cases hhigh : T.confined m = T.max
      · obtain ⟨bound, hreturns⟩ := minVal_max_returns h.le_max
          fun ⟨hmin, hmax⟩ => hend ⟨hmin, hmax, hhigh⟩
        exact ⟨bound, by rw [perform, hhigh]; exact hreturns⟩
      · exact ⟨2, minVal_returns hm.1 (by omega)⟩
    · exact (valid_of_nested h.probability_nonneg h.probability_le hm).2 h.le_max heq
  | shuffle seed =>
    refine ⟨⟨fun _ => not_false, fun _ => ⟨0, _, rfl⟩⟩, fun bound draw' heq => ?_⟩
    cases heq
    exact ⟨h.min_le, h.lt, h.le_max, h.probability_nonneg, h.probability_le⟩

/-- Whatever is configured has its limits in order. -/
theorem Configured.valid {calls : List Call} (h : Configured T calls draw) : draw.Valid := by
  induction h with
  | construct mapped => exact valid_construct T mapped
  | call bound _ hperform ih => exact (perform_spec ih _).2 bound _ hperform

end RandomDraw

end Lumiera.Lib
