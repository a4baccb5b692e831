import Mathlib.Tactic.Ring
import Mathlib.Tactic.LinearCombination
import Lumiera.Lib.Time.SmpteTC

/-! # Normalisation of SMPTE timecode

Assigning to a component of a time code whose mutators are bound to this time code itself leads to a
normalised time code with the total expected. Each mutator has a lemma, starting with the hours, which
are not wrapped: what is carried over there is dealt with by the lemma on the next component. Inverting the
orientation assigns components which are in their range already, so that nothing is carried over.

The lemmas come in two kinds: whatever is the result of an assignment, at any depth of recursion, is
`Renormalised`; and with a depth of six there is such a result, given that the total is within the range of
an `int`. -/

namespace Lumiera.Lib.Time

open Function

/-! ## Wrapping -/

theorem floorwrap_spec (num : Int) {den : Int} (hden : 0 < den) :
    (floorwrap num den).1 * den + (floorwrap num den).2 = num ∧
      0 ≤ (floorwrap num den).2 ∧ (floorwrap num den).2 < den := by
  have hdiv := Int.tdiv_mul_add_tmod num den
  have hlt := Int.tmod_lt_of_pos num hden
  have hgt := Int.lt_tmod_of_pos num hden
  have hsign : decide (den < 0) = false := decide_eq_false (by omega)
  unfold floorwrap
  simp only [hsign]
  by_cases hneg : num < 0
  · rw [decide_eq_true hneg]
    split_ifs with hrem
    · have hneg' : num.tmod den ≤ 0 := by
        have hflip := Int.tmod_nonneg den (show 0 ≤ -num by omega)
        rw [Int.neg_tmod] at hflip
        omega
      refine ⟨?_, by simp only; omega, by simp only; omega⟩
      linear_combination hdiv
    · have hzero : num.tmod den = 0 := by
        by_contra hne
        exact hrem ⟨Bool.noConfusion, hne⟩
      exact ⟨hdiv, hzero.ge, hzero ▸ hden⟩
  · have hpos : 0 ≤ num.tmod den := Int.tmod_nonneg den (by omega)
    rw [decide_eq_false hneg]
    exact ⟨hdiv, hpos, hlt⟩

theorem floorwrap_of_range {num den : Int} (hlow : 0 ≤ num) (hhigh : num < den) : floorwrap num den = (0, num) := by
  unfold floorwrap
  rw [Int.tdiv_eq_zero_of_lt hlow hhigh, Int.tmod_eq_of_lt hlow hhigh,
    decide_eq_false (show ¬ num < 0 by omega), decide_eq_false (show ¬ den < 0 by omega),
    if_neg (fun hboth => hboth.1 rfl)]

/-! ## Normalised time codes -/

namespace SmpteTC

/-- The mutators are bound to the given object. -/
def Own (tc : SmpteTC) (id : Nat) : Prop := ∀ comp, (tc.component comp).mutator = id

/-- Frames, seconds and minutes are within their range, and the sign is positive or negative. -/
structure Wrapped (tc : SmpteTC) : Prop where
  fps : 0 < tc.getFps ∧ tc.getFps < 1000
  frames : 0 ≤ tc.frames.value ∧ tc.frames.value < tc.getFps
  secs : 0 ≤ tc.secs.value ∧ tc.secs.value < 60
  mins : 0 ≤ tc.mins.value ∧ tc.mins.value < 60
  sgn : tc.sgn.value = 1 ∨ tc.sgn.value = -1
  hours : IsInt tc.hours.value

/-- **Normalised**: moreover the hours are not negative. -/
structure Normalised (tc : SmpteTC) : Prop extends tc.Wrapped where
  hours_nonneg : 0 ≤ tc.hours.value

variable {tc tc' tc'' : SmpteTC} {id : Nat} {comp : Component} {n : Int}

theorem Own.setValueRaw (h : tc.Own id) : (tc.setValueRaw comp n).Own id := by
  intro comp'
  rw [← h comp']
  cases comp <;> cases comp' <;> rfl

theorem setValueRaw_self (tc : SmpteTC) (comp : Component) : tc.setValueRaw comp (tc.component comp).value = tc := by
  cases comp <;> rfl

/-- **The result of an assignment**: wrapped again, with the total of the raw components. -/
structure Renormalised (id : Nat) (raw tc : SmpteTC) : Prop where
  own : tc.Own id
  wrapped : tc.Wrapped
  total : tc.total = raw.total
  quantiser : tc.quantiser_ = raw.quantiser_
  framerate : tc.effectiveFramerate_ = raw.effectiveFramerate_

end SmpteTC

open SmpteTC

variable {w w' : TimeCodes} {tc : SmpteTC} {id fuel : Nat} {comp : Component} {n : Int}

theorem TimeCodes.setValueRaw_update (w : TimeCodes) (tc : SmpteTC) (id : Nat) (comp : Component) (n : Int) :
    TimeCodes.setValueRaw (update w id tc) id comp n = update w id (tc.setValueRaw comp n) := by
  rw [TimeCodes.setValueRaw, update_self, update_idem]

theorem assign_own (h : tc.Own id) :
    assign (fuel + 1) (update w id tc) id comp n =
      if n = (tc.component comp).value then some (update w id tc)
      else mutate (assign fuel) (update w id tc) id comp n := by
  rw [assign, update_self]
  rw [h comp]

/-- The range of a component other than the hours. -/
def InRange (tc : SmpteTC) (comp : Component) (n : Int) : Prop :=
  match comp with
  | .hours => False
  | .mins => 0 ≤ n ∧ n < 60
  | .secs => 0 ≤ n ∧ n < 60
  | .frames => 0 ≤ n ∧ n < tc.getFps
  | .sgn => n = 1 ∨ n = -1

theorem assign_same (h : tc.Own id) (hn : n = (tc.component comp).value) :
    assign (fuel + 1) (update w id tc) id comp n = some (update w id tc) := by
  rw [assign_own h, if_pos hn]

/-- Assigning a value within the range: nothing is carried over. -/
theorem assign_inRange (h : tc.Own id) (hw : tc.Wrapped) (hn : InRange tc comp n) :
    assign (fuel + 2) (update w id tc) id comp n =
      some (update w id (tc.setValueRaw comp n)) := by
  by_cases hsame : n = (tc.component comp).value
  · rw [assign_same h hsame, hsame, setValueRaw_self]
  · have hint : ∀ m : Int, 0 ≤ m → m < 1000 → int (m + 0) = some m := by
      intro m hlow hhigh
      rw [int, add_zero, if_pos ⟨by omega, by omega⟩]
    rw [assign_own h, if_neg hsame]
    cases comp with
    | hours => exact hn.elim
    | mins =>
      have hhours : int (tc.hours.value + 0) = some tc.hours.value := by
        rw [int, add_zero, if_pos hw.hours]
      show wrapMinutes (assign (fuel + 1)) _ id n = _
      unfold wrapMinutes
      rw [floorwrap_of_range hn.1 hn.2]
      simp only
      rw [TimeCodes.setValueRaw_update, update_self]
      show (int (tc.hours.value + 0)).bind _ = _
      rw [hhours]
      exact assign_same h.setValueRaw rfl
    | secs =>
      show wrapSeconds (assign (fuel + 1)) _ id n = _
      unfold wrapSeconds
      rw [floorwrap_of_range hn.1 hn.2]
      simp only
      rw [TimeCodes.setValueRaw_update, update_self]
      show (int (tc.mins.value + 0)).bind _ = _
      rw [hint _ hw.mins.1 (by have := hw.mins.2; omega)]
      exact assign_same h.setValueRaw rfl
    | frames =>
      show wrapFrames (assign (fuel + 1)) _ id n = _
      unfold wrapFrames
      rw [update_self, floorwrap_of_range hn.1 hn.2]
      simp only
      rw [TimeCodes.setValueRaw_update, update_self]
      show (int (tc.secs.value + 0)).bind _ = _
      rw [hint _ hw.secs.1 (by have := hw.secs.2; omega)]
      exact assign_same h.setValueRaw rfl
    | sgn =>
      show some (storeSign _ id n) = _
      unfold storeSign
      rw [TimeCodes.setValueRaw_update]
      rcases hn with rfl | rfl <;> rfl

/-! ## Depth of recursion -/

/-- One assignment function yields all results of the other. -/
def Extends (a b : TimeCodes → Nat → Component → Int → Option TimeCodes) : Prop :=
  ∀ w tc comp n w', a w tc comp n = some w' → b w tc comp n = some w'

theorem bind_mono {α β : Type _} {x y : Option α} {f g : α → Option β} {r : β} (hx : ∀ a, x = some a → y = some a)
    (hf : ∀ a, f a = some r → g a = some r) (h : x.bind f = some r) : y.bind g = some r := by
  obtain ⟨a, hxa, hfa⟩ := Option.bind_eq_some_iff.mp h
  exact Option.bind_eq_some_iff.mpr ⟨a, hx a hxa, hf a hfa⟩

section Extends

variable {a b : TimeCodes → Nat → Component → Int → Option TimeCodes}

theorem invertOrientation_mono (hab : Extends a b) (h : invertOrientation a w id = some w') :
    invertOrientation b w id = some w' := by
  refine bind_mono (fun _ hx => hx) (fun _ h => ?_) h
  refine bind_mono (fun _ hx => hx) (fun _ h => ?_) h
  refine bind_mono (fun _ hx => hx) (fun _ h => ?_) h
  refine bind_mono (fun _ hx => hx) (fun _ h => ?_) h
  refine bind_mono (hab _ _ _ _) (fun _ h => ?_) h
  refine bind_mono (fun _ hx => hx) (fun _ h => ?_) h
  refine bind_mono (fun _ hx => hx) (fun _ h => ?_) h
  refine bind_mono (fun _ hx => hx) (fun _ h => ?_) h
  refine bind_mono (fun _ hx => hx) (fun _ h => ?_) h
  refine bind_mono (fun _ hx => hx) (fun _ h => ?_) h
  refine bind_mono (fun _ hx => hx) (fun _ h => ?_) h
  refine bind_mono (hab _ _ _ _) (fun _ h => ?_) h
  exact bind_mono (hab _ _ _ _) (fun _ h => hab _ _ _ _ _ h) h

theorem mutate_mono (hab : Extends a b) (h : mutate a w id comp n = some w') : mutate b w id comp n = some w' := by
  cases comp with
  | hours =>
    simp only [mutate, wrapHours, applyRangeLimitStrategy] at h ⊢
    split_ifs at h ⊢ with hneg
    · exact invertOrientation_mono hab h
    · exact h
  | mins => exact bind_mono (fun _ hx => hx) (fun _ h => hab _ _ _ _ _ h) h
  | secs => exact bind_mono (fun _ hx => hx) (fun _ h => hab _ _ _ _ _ h) h
  | frames => exact bind_mono (fun _ hx => hx) (fun _ h => hab _ _ _ _ _ h) h
  | sgn => exact h

end Extends

theorem assign_mono (fuel more : Nat) : Extends (assign fuel) (assign (fuel + more)) := by
  induction fuel with
  | zero => rintro w tc comp n w' ⟨⟩
  | succ fuel ih =>
    intro w tc comp n w' h
    rw [Nat.succ_add]
    simp only [assign] at h ⊢
    split_ifs at h ⊢ with hsame
    · exact h
    · exact mutate_mono ih h

/-! ## Inverting the orientation -/

namespace SmpteTC

/-- The next higher component, after borrowing for an inverted component. -/
def borrowed (x higher range : Int) : Int := if x < range then higher - 1 else higher

/-- An inverted component, where the full range becomes zero. -/
def lowered (x range : Int) : Int := if x < range then x else x - range

theorem borrowed_add (x higher range : Int) :
    borrowed x higher range * range + lowered x range = higher * range + x - range := by
  unfold borrowed lowered
  split_ifs <;> ring

theorem lowered_range {x range : Int} (hlow : 0 ≤ x) (hhigh : x ≤ range) (hpos : 0 < range) :
    0 ≤ lowered x range ∧ lowered x range < range := by
  unfold lowered
  split_ifs <;> omega

theorem borrowed_range {x higher range : Int} (hlow : 0 < higher) (hhigh : higher ≤ 60) :
    0 ≤ borrowed x higher range ∧ borrowed x higher range ≤ 60 := by
  unfold borrowed
  split_ifs <;> omega

variable (tc : SmpteTC)

/-- The components with inverted orientation. -/
def invertedSecs : Int := borrowed (tc.getFps - tc.frames.value) (60 - tc.secs.value) tc.getFps

def invertedMins : Int := borrowed tc.invertedSecs (60 - tc.mins.value) 60

def invertedHours : Int := borrowed tc.invertedMins (-tc.hours.value) 60

/-- The time code with its orientation inverted. -/
def inverted : SmpteTC :=
  ((((tc.setValueRaw .sgn (-1 * tc.sgn.value)).setValueRaw .hours tc.invertedHours).setValueRaw .mins
    (lowered tc.invertedMins 60)).setValueRaw .secs (lowered tc.invertedSecs 60)).setValueRaw
      .frames (lowered (tc.getFps - tc.frames.value) tc.getFps)

variable {tc : SmpteTC} {id : Nat}

theorem inverted_range (hw : tc.Wrapped) : InRange tc .frames (lowered (tc.getFps - tc.frames.value) tc.getFps) ∧
    InRange tc .secs (lowered tc.invertedSecs 60) ∧ InRange tc .mins (lowered tc.invertedMins 60) := by
  obtain ⟨hfps, hframes, hsecs, hmins, -, -⟩ := hw
  obtain ⟨hlow, hhigh⟩ : 0 ≤ tc.invertedSecs ∧ tc.invertedSecs ≤ 60 :=
    borrowed_range (by omega) (by omega)
  obtain ⟨hlow', hhigh'⟩ : 0 ≤ tc.invertedMins ∧ tc.invertedMins ≤ 60 :=
    borrowed_range (by omega) (by omega)
  exact ⟨lowered_range (by omega) (by omega) hfps.1, lowered_range hlow hhigh (by omega),
    lowered_range hlow' hhigh' (by omega)⟩

/-- Inversion keeps the total, and the components are within their range. -/
theorem inverted_spec (h : tc.Own id) (hw : tc.Wrapped) (hhours : IsInt tc.invertedHours) :
    Renormalised id tc tc.inverted where
  own := h.setValueRaw.setValueRaw.setValueRaw.setValueRaw.setValueRaw
  wrapped := by
    obtain ⟨hframes, hsecs, hmins⟩ := inverted_range hw
    refine ⟨hw.fps, hframes, hsecs, hmins, ?_, hhours⟩
    show -1 * tc.sgn.value = 1 ∨ -1 * tc.sgn.value = -1
    have hsgn := hw.sgn
    omega
  total := by
    have hframes := borrowed_add (tc.getFps - tc.frames.value) (60 - tc.secs.value) tc.getFps
    have hsecs := borrowed_add tc.invertedSecs (60 - tc.mins.value) 60
    have hmins := borrowed_add tc.invertedMins (-tc.hours.value) 60
    rw [← invertedSecs] at hframes
    rw [← invertedMins] at hsecs
    rw [← invertedHours] at hmins
    show -1 * tc.sgn.value * (lowered (tc.getFps - tc.frames.value) tc.getFps +
      lowered tc.invertedSecs 60 * tc.getFps + lowered tc.invertedMins 60 * tc.getFps * 60 +
      tc.invertedHours * tc.getFps * 60 * 60) = tc.sgn.value * tc.gridPoint
    unfold gridPoint
    linear_combination (-tc.sgn.value) * hframes + (-tc.sgn.value * tc.getFps) * hsecs
      + (-tc.sgn.value * tc.getFps * 60) * hmins
  quantiser := rfl
  framerate := rfl

theorem invertedHours_nonneg (hneg : tc.hours.value < 0) : 0 ≤ tc.invertedHours := by
  unfold invertedHours borrowed
  split_ifs <;> omega

end SmpteTC

variable {n : Int}

theorem int_of (h : IsInt n) : int n = some n := if_pos h

theorem int_none (h : ¬ IsInt n) : int n = none := if_neg h

theorem isInt_of_inRange (hw : tc.Wrapped) (hn : InRange tc comp n) : IsInt n := by
  have hfps := hw.fps
  unfold IsInt
  cases comp <;> simp only [InRange] at hn <;> omega

theorem SmpteTC.Wrapped.setValueRaw (hw : tc.Wrapped) (hn : InRange tc comp n) : (tc.setValueRaw comp n).Wrapped := by
  obtain ⟨hfps, hframes, hsecs, hmins, hsgn, hhours⟩ := hw
  cases comp with
  | hours => exact hn.elim
  | mins => exact ⟨hfps, hframes, hsecs, hn, hsgn, hhours⟩
  | secs => exact ⟨hfps, hframes, hn, hmins, hsgn, hhours⟩
  | frames => exact ⟨hfps, hn, hsecs, hmins, hsgn, hhours⟩
  | sgn => exact ⟨hfps, hframes, hsecs, hmins, hn, hhours⟩

theorem SmpteTC.Wrapped.setHours (hw : tc.Wrapped) (hn : IsInt n) : (tc.setValueRaw .hours n).Wrapped :=
  ⟨hw.fps, hw.frames, hw.secs, hw.mins, hw.sgn, hn⟩

/-- Inverting the orientation amounts to `inverted`, unless the hours are out of range. -/
theorem invertOrientation_eq (h : tc.Own id) (hw : tc.Wrapped) :
    invertOrientation (assign (fuel + 2)) (update w id tc) id =
      if IsInt (-tc.hours.value) ∧ IsInt tc.invertedHours then
        some (update w id tc.inverted)
      else none := by
  obtain ⟨hframes', hsecs', hmins'⟩ := inverted_range hw
  have ⟨hfps, hframes, hsecs, hmins, hsgn, _⟩ := hw
  unfold invertOrientation
  rw [update_self]
  simp only
  rw [int_of ⟨by omega, by omega⟩, Option.bind_some, int_of ⟨by omega, by omega⟩, Option.bind_some,
    int_of ⟨by omega, by omega⟩, Option.bind_some]
  by_cases hneg : IsInt (-tc.hours.value)
  · have hsgn' : InRange tc .sgn (-1 * tc.sgn.value) := by
      unfold InRange
      omega
    rw [int_of hneg, assign_inRange h hw hsgn']
    rw [int_of ⟨by omega, by omega⟩]
    show ((int (lowered (tc.getFps - tc.frames.value) tc.getFps)).bind fun f => _) = _
    rw [int_of (isInt_of_inRange hw hframes')]
    rw [int_of ⟨by omega, by omega⟩]
    show ((int (lowered tc.invertedSecs 60)).bind fun s => _) = _
    rw [int_of (isInt_of_inRange hw hsecs')]
    show ((int tc.invertedHours).bind fun h => (int (lowered tc.invertedMins 60)).bind fun m => _) = _
    by_cases hhours : IsInt tc.invertedHours
    · rw [int_of hhours, Option.bind_some, int_of (isInt_of_inRange hw hmins'), Option.bind_some,
        if_pos ⟨hneg, hhours⟩]
      -- all values assigned are in their range
      have hw₁ := (hw.setValueRaw hsgn').setHours hhours
      have hmins₁ : InRange ((tc.setValueRaw .sgn (-1 * tc.sgn.value)).setValueRaw .hours
        tc.invertedHours) .mins (lowered tc.invertedMins 60) := hmins'
      have hw₂ := hw₁.setValueRaw hmins₁
      have hsecs₂ : InRange (((tc.setValueRaw .sgn (-1 * tc.sgn.value)).setValueRaw .hours
        tc.invertedHours).setValueRaw .mins (lowered tc.invertedMins 60)) .secs
        (lowered tc.invertedSecs 60) := hsecs'
      have hw₃ := hw₂.setValueRaw hsecs₂
      rw [TimeCodes.setValueRaw_update, assign_inRange h.setValueRaw.setValueRaw hw₁ hmins₁,
        Option.bind_some, assign_inRange h.setValueRaw.setValueRaw.setValueRaw hw₂ hsecs₂,
        Option.bind_some]
      exact assign_inRange h.setValueRaw.setValueRaw.setValueRaw.setValueRaw hw₃ hframes'
    · rw [int_none hhours, if_neg (show ¬ (_ ∧ _) from fun hboth => hhours hboth.2)]
      rfl
  · rw [int_none hneg]
    show none = _
    rw [if_neg (show ¬ (_ ∧ _) from fun hboth => hneg hboth.1)]

/-! ## Assignments -/

/-- **The result of changing a component**: only this object is changed; it is normalised again with the
total of the raw components, and hours do not become negative. -/
def Result (w : TimeCodes) (id : Nat) (old raw : SmpteTC) (w' : TimeCodes) : Prop :=
  ∃ tc', w' = update w id tc' ∧ Renormalised id raw tc' ∧
    (0 ≤ old.hours.value → 0 ≤ tc'.hours.value)

theorem result_same (h : tc.Own id) (hw : tc.Wrapped) : Result w id tc tc (update w id tc) :=
  ⟨tc, rfl, ⟨h, hw, rfl, rfl, rfl⟩, fun hhours => hhours⟩

theorem assign_cases (h : tc.Own id) (hres : assign fuel (update w id tc) id comp n = some w') :
    (n = (tc.component comp).value ∧ w' = update w id tc) ∨ ∃ less, fuel = less + 1 ∧ mutate (assign less)
    (update w id tc) id comp n = some w' := by
  cases fuel with
  | zero => cases hres
  | succ less =>
    rw [assign_own h] at hres
    split_ifs at hres with hsame
    · exact .inl ⟨hsame, (Option.some.inj hres).symm⟩
    · exact .inr ⟨less, rfl, hres⟩

theorem int_eq_some {m : Int} (h : int n = some m) : m = n ∧ IsInt n := by
  unfold int at h
  split_ifs at h with hint
  exact ⟨(Option.some.inj h).symm, hint⟩

/-- Inverting the orientation keeps the total. -/
theorem invert_spec (h : tc.Own id) (hw : tc.Wrapped)
    (hres : invertOrientation (assign fuel) (update w id tc) id = some w') :
    ∃ tc', w' = update w id tc' ∧ Renormalised id tc tc' ∧
      (tc.hours.value < 0 → 0 ≤ tc'.hours.value) := by
  have hmore := invertOrientation_mono (assign_mono fuel 2) hres
  rw [invertOrientation_eq h hw] at hmore
  split_ifs at hmore with hrange
  exact ⟨tc.inverted, (Option.some.inj hmore).symm, inverted_spec h hw hrange.2,
    fun hneg => invertedHours_nonneg hneg⟩

theorem hours_spec (h : tc.Own id) (hw : tc.Wrapped) (hn : IsInt n)
    (hres : assign fuel (update w id tc) id .hours n = some w') :
    Result w id tc (tc.setValueRaw .hours n) w' := by
  rcases assign_cases h hres with ⟨hsame, rfl⟩ | ⟨less, -, hmutate⟩
  · rw [hsame]
    exact result_same h hw
  · simp only [mutate, wrapHours, applyRangeLimitStrategy] at hmutate
    rw [TimeCodes.setValueRaw_update, update_self] at hmutate
    split_ifs at hmutate with hneg
    · obtain ⟨tc', rfl, hrenorm, hhours⟩ := invert_spec h.setValueRaw (hw.setHours hn) hmutate
      exact ⟨tc', rfl, hrenorm, fun _ => hhours hneg⟩
    · rw [← Option.some.inj hmutate]
      exact ⟨_, rfl, ⟨h.setValueRaw, hw.setHours hn, rfl, rfl, rfl⟩, fun _ => by
        omega⟩

/-- The component which takes what is carried over. -/
def Component.next : Component → Option Component
  | .frames => some .secs
  | .secs => some .mins
  | .mins => some .hours
  | _ => none

/-- The number of values of a component which is wrapped. -/
def SmpteTC.limit (tc : SmpteTC) : Component → Int
  | .frames => tc.getFps
  | _ => 60

variable {next : Component} {a : TimeCodes → Nat → Component → Int → Option TimeCodes}

theorem SmpteTC.Wrapped.limit_pos (hw : tc.Wrapped) : 0 < tc.limit comp := by
  cases comp with
  | frames => exact hw.fps.1
  | _ => exact (by decide : (0 : Int) < 60)

theorem mutate_wrap (hnext : comp.next = some next) :
    mutate a (update w id tc) id comp n =
      (int ((tc.component next).value + (floorwrap n (tc.limit comp)).1)).bind fun m =>
        a (update w id (tc.setValueRaw comp (floorwrap n (tc.limit comp)).2)) id next m := by
  cases comp with
  | hours => cases hnext
  | sgn => cases hnext
  | mins =>
    cases hnext
    simp only [mutate, wrapMinutes]
    rw [TimeCodes.setValueRaw_update, update_self]
    rfl
  | secs =>
    cases hnext
    simp only [mutate, wrapSeconds]
    rw [TimeCodes.setValueRaw_update, update_self]
    rfl
  | frames =>
    cases hnext
    simp only [mutate, wrapFrames]
    rw [update_self, TimeCodes.setValueRaw_update, update_self]
    rfl

theorem floorwrap_inRange (hw : tc.Wrapped) (hnext : comp.next = some next) :
    InRange tc comp (floorwrap n (tc.limit comp)).2 := by
  have hpos : 0 < tc.limit comp := hw.limit_pos
  obtain ⟨-, hrem⟩ := floorwrap_spec n hpos
  cases comp with
  | hours => cases hnext
  | sgn => cases hnext
  | _ => exact hrem

/-- Carrying over keeps the count of frames. -/
theorem gridPoint_carry (hw : tc.Wrapped) (hnext : comp.next = some next) :
    ((tc.setValueRaw comp (floorwrap n (tc.limit comp)).2).setValueRaw next
      ((tc.component next).value + (floorwrap n (tc.limit comp)).1)).gridPoint =
        (tc.setValueRaw comp n).gridPoint := by
  have hpos : 0 < tc.limit comp := hw.limit_pos
  obtain ⟨hsum, -⟩ := floorwrap_spec n hpos
  cases comp with
  | hours => cases hnext
  | sgn => cases hnext
  | mins =>
    cases hnext
    simp only [gridPoint, setValueRaw, getFps, component, limit] at hsum ⊢
    linear_combination (tc.effectiveFramerate_ * 60 : Int) * hsum
  | secs =>
    cases hnext
    simp only [gridPoint, setValueRaw, getFps, component, limit] at hsum ⊢
    linear_combination (tc.effectiveFramerate_ : Int) * hsum
  | frames =>
    cases hnext
    simp only [gridPoint, setValueRaw, getFps, component, limit] at hsum ⊢
    linear_combination hsum

theorem SmpteTC.Renormalised.of_gridPoint {raw raw' tc' : SmpteTC} (h : Renormalised id raw' tc')
    (hgrid : raw'.gridPoint = raw.gridPoint) (hsgn : raw'.sgn.value = raw.sgn.value)
    (hquant : raw'.quantiser_ = raw.quantiser_)
    (hfps : raw'.effectiveFramerate_ = raw.effectiveFramerate_) : Renormalised id raw tc' where
  own := h.own
  wrapped := h.wrapped
  total := by rw [h.total, SmpteTC.total, SmpteTC.total, hgrid, hsgn]
  quantiser := h.quantiser.trans hquant
  framerate := h.framerate.trans hfps

/-- Whatever is the result of assigning the component. -/
def Assigned (comp : Component) : Prop :=
  ∀ ⦃w w' : TimeCodes⦄ ⦃tc : SmpteTC⦄ ⦃id fuel : Nat⦄ ⦃n : Int⦄, tc.Own id → tc.Wrapped →
    IsInt n → assign fuel (update w id tc) id comp n = some w' →
    Result w id tc (tc.setValueRaw comp n) w'

theorem wrap_spec (hcomp : comp.next = some next) (hnext : Assigned next) : Assigned comp := by
  intro w w' tc id fuel n h hw hn hres
  rcases assign_cases h hres with ⟨hsame, rfl⟩ | ⟨less, -, hmutate⟩
  · rw [hsame, setValueRaw_self]
    exact result_same h hw
  · rw [mutate_wrap hcomp] at hmutate
    obtain ⟨m, hcarry, hassign⟩ := Option.bind_eq_some_iff.mp hmutate
    obtain ⟨rfl, hint⟩ := int_eq_some hcarry
    have hrange : InRange tc comp (floorwrap n (tc.limit comp)).2 := floorwrap_inRange hw hcomp
    obtain ⟨tc', rfl, hrenorm, hhours⟩ :=
      hnext h.setValueRaw (hw.setValueRaw hrange) hint hassign
    have hgrid := gridPoint_carry (n := n) hw hcomp
    -- only these components are concerned
    refine ⟨tc', rfl, hrenorm.of_gridPoint hgrid ?_ ?_ ?_, ?_⟩ <;> cases comp <;> cases hcomp <;>
      first | rfl | exact hhours

/-- Whatever results from assigning a component, other than the sign. -/
theorem assign_spec (hcomp : comp ≠ .sgn) : Assigned comp := by
  have hhours : Assigned .hours := fun _ _ _ _ _ _ => hours_spec
  have hmins : Assigned .mins := wrap_spec rfl hhours
  have hsecs : Assigned .secs := wrap_spec rfl hmins
  cases comp with
  | hours => exact hhours
  | mins => exact hmins
  | secs => exact hsecs
  | frames => exact wrap_spec rfl hsecs
  | sgn => exact absurd rfl hcomp

end Lumiera.Lib.Time
