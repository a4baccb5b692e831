import Mathlib.Tactic.Linarith
import Lumiera.Lib.Time.SmpteNormalise

/-! # Assigning the components of SMPTE timecode

Assigning to a component of a normalised time code has a result, given that the count of frames stays in
the range of an `int`; together with what is known about each result this says what an assignment does,
and likewise for increment and decrement. It holds for all time codes in a run, unless a time code is
changed which got its digits from another one: the mutators of these digits refer to that other time code,
which is then changed instead. -/

namespace Lumiera.Lib.Time

open Function SmpteTC

variable {w : TimeCodes} {tc : SmpteTC} {id fuel : Nat} {comp next : Component} {n : Int}

/-! ## Ranges -/

theorem isInt_quotient {g lower quot den : Int} (hg : IsInt g) (hden : 0 < den) (hlow : 0 ≤ lower)
    (hhigh : lower < den) (heq : quot * den + lower = g) : IsInt quot := by
  obtain ⟨hmin, hmax⟩ := hg
  constructor
  · by_contra hless
    have hscale : (quot + 1) * den ≤ (quot + 1) * 1 :=
      Int.mul_le_mul_of_nonpos_left (by omega) (by omega)
    have hexpand : (quot + 1) * den = quot * den + den := by ring
    omega
  · by_contra hmore
    have hscale : quot * 1 ≤ quot * den := Int.mul_le_mul_of_nonneg_left (by omega) (by omega)
    omega

theorem count_isInt (hgrid : IsInt tc.gridPoint) (hfps : 0 < tc.getFps)
    (hframes : 0 ≤ tc.frames.value ∧ tc.frames.value < tc.getFps) :
    IsInt ((tc.hours.value * 60 + tc.mins.value) * 60 + tc.secs.value) := by
  refine isInt_quotient hgrid hfps hframes.1 hframes.2 ?_
  unfold gridPoint
  ring

theorem hours_isInt (hw : tc.Wrapped) (hgrid : IsInt (tc.setValueRaw .hours n).gridPoint) : IsInt n ∧ IsInt (-n) := by
  have hcount : IsInt ((n * 60 + tc.mins.value) * 60 + tc.secs.value) :=
    count_isInt hgrid hw.fps.1 hw.frames
  have hmins := hw.mins
  have hsecs := hw.secs
  unfold IsInt at hcount ⊢
  omega

theorem carry_isInt (hw : tc.Normalised) (hnext : comp.next = some next) (hn : IsInt n)
    (hgrid : IsInt (tc.setValueRaw comp n).gridPoint) :
    IsInt ((tc.component next).value + (floorwrap n (tc.limit comp)).1) := by
  have hpos : 0 < tc.limit comp := hw.limit_pos
  obtain ⟨hsum, hlow, hhigh⟩ := floorwrap_spec n hpos
  have hquot : IsInt (floorwrap n (tc.limit comp)).1 := isInt_quotient hn hpos hlow hhigh hsum
  rw [← gridPoint_carry hw.toWrapped hnext] at hgrid
  obtain ⟨⟨⟨hfps, -⟩, hframes, hsecs, hmins, -, -⟩, hhours⟩ := hw
  cases comp with
  | hours => cases hnext
  | sgn => cases hnext
  | frames =>
    cases hnext
    have hcount := count_isInt hgrid hfps ⟨hlow, hhigh⟩
    simp only [setValueRaw, component] at hcount ⊢
    unfold IsInt at *
    omega
  | secs =>
    cases hnext
    have hcount := count_isInt hgrid hfps hframes
    simp only [setValueRaw, component, limit] at hcount hquot ⊢
    simp only [limit] at hlow hhigh
    unfold IsInt at *
    omega
  | mins =>
    cases hnext
    have hcount := count_isInt hgrid hfps hframes
    simp only [setValueRaw, limit] at hcount hquot ⊢
    simp only [limit] at hlow hhigh
    unfold IsInt at *
    omega

/-! ## Existence of the result -/

/-- Assigning the component has a result when the count of frames stays in range. -/
def Assignable (comp : Component) : Prop :=
  ∀ ⦃w : TimeCodes⦄ ⦃tc : SmpteTC⦄ ⦃id : Nat⦄ ⦃n : Int⦄, tc.Own id → tc.Normalised → IsInt n →
    IsInt (tc.setValueRaw comp n).gridPoint →
    ∃ fuel w', assign fuel (Function.update w id tc) id comp n = some w'

theorem hours_assignable : Assignable .hours := by
  intro w tc id n h hw _ hgrid
  refine ⟨3, ?_⟩
  by_cases hsame : n = (tc.component .hours).value
  · exact ⟨_, assign_same h hsame⟩
  · obtain ⟨hn, hneg⟩ := hours_isInt hw.toWrapped hgrid
    rw [assign_own h, if_neg hsame]
    simp only [mutate, wrapHours, applyRangeLimitStrategy]
    rw [TimeCodes.setValueRaw_update, update_self]
    by_cases hless : n < 0
    · have hless' : (tc.setValueRaw .hours n).hours.value < 0 := hless
      have hrange : IsInt (-(tc.setValueRaw .hours n).hours.value) ∧
          IsInt (tc.setValueRaw .hours n).invertedHours := by
        refine ⟨hneg, ?_⟩
        have hneg' : (tc.setValueRaw .hours n).hours.value = n := rfl
        unfold IsInt at hneg ⊢
        unfold invertedHours borrowed
        split_ifs <;> omega
      rw [if_pos hless', invertOrientation_eq h.setValueRaw (hw.toWrapped.setHours hn), if_pos hrange]
      exact ⟨_, rfl⟩
    · have hmore : ¬ (tc.setValueRaw .hours n).hours.value < 0 := hless
      rw [if_neg hmore]
      exact ⟨_, rfl⟩

theorem wrap_assignable (hcomp : comp.next = some next) (hnext : Assignable next) : Assignable comp := by
  intro w tc id n h hw hn hgrid
  have hcarry := carry_isInt hw hcomp hn hgrid
  have hrange : InRange tc comp (floorwrap n (tc.limit comp)).2 :=
    floorwrap_inRange hw.toWrapped hcomp
  have hstored : (tc.setValueRaw comp (floorwrap n (tc.limit comp)).2).Normalised := by
    refine ⟨hw.toWrapped.setValueRaw hrange, ?_⟩
    cases comp with
    | hours => cases hcomp
    | _ => exact hw.hours_nonneg
  rw [← gridPoint_carry hw.toWrapped hcomp] at hgrid
  obtain ⟨fuel, w', hassign⟩ := hnext (w := w) h.setValueRaw hstored hcarry hgrid
  by_cases hsame : n = (tc.component comp).value
  · exact ⟨1, _, assign_same h hsame⟩
  · refine ⟨fuel + 1, w', ?_⟩
    rw [assign_own h, if_neg hsame, mutate_wrap hcomp, int_of hcarry, Option.bind_some, hassign]

/-- Assignment has a result, when the count of frames stays in range. -/
theorem assignable (hcomp : comp ≠ .sgn) : Assignable comp := by
  have hmins : Assignable .mins := wrap_assignable rfl hours_assignable
  have hsecs : Assignable .secs := wrap_assignable rfl hmins
  cases comp with
  | hours => exact hours_assignable
  | mins => exact hmins
  | secs => exact hsecs
  | frames => exact wrap_assignable rfl hsecs
  | sgn => exact absurd rfl hcomp

/-! ## Operations -/

/-- Assignment at an object with its own mutators changes only this object. -/
theorem assign_at {w w' : TimeCodes} (hcomp : comp ≠ .sgn) (h : (w id).Own id) (hw : (w id).Wrapped) (hn : IsInt n)
    (hres : assign fuel w id comp n = some w') : Result w id (w id) ((w id).setValueRaw comp n) w' := by
  rw [← update_eq_self id w] at hres
  exact assign_spec hcomp h hw hn hres

namespace Objects

variable {objs objs' : Objects} {op : Operation}

/-- The component changed by an operation, and the raw value put there. -/
def change (objs : Objects) : Operation → Option (Nat × Component × Int)
  | .set tc comp n => some (tc, comp, n)
  | .increment tc => some (tc, .frames, (objs.codes tc).frames.value + (objs.codes tc).sgn.value)
  | .decrement tc => some (tc, .frames, (objs.codes tc).frames.value - (objs.codes tc).sgn.value)
  | _ => none

/-- The operations considered: single components other than the sign are changed, and the count of frames
stays in range; any time code may be constructed, copied or assigned. -/
def Counted (objs : Objects) (op : Operation) : Prop :=
  (∀ tc, op ≠ .invert tc) ∧
  ∀ tc comp n, objs.change op = some (tc, comp, n) →
    tc < objs.cnt ∧ comp ≠ .sgn ∧ IsInt n ∧ IsInt ((objs.codes tc).setValueRaw comp n).gridPoint

/-- The time code changed has its own mutators, not those of another one. -/
def OwnDigits (objs : Objects) (op : Operation) : Prop :=
  ∀ tc comp n, objs.change op = some (tc, comp, n) → (objs.codes tc).Own tc

/-- **The change is normalised**: it has a result, and the time code changed is normalised then, with the
total found by putting the raw value in place. -/
def Renormalises (objs : Objects) (op : Operation) : Prop :=
  ∀ tc comp n, objs.change op = some (tc, comp, n) →
    (∃ fuel objs', objs.perform fuel op = some objs') ∧
    ∀ fuel objs', objs.perform fuel op = some objs' →
      (objs'.codes tc).Normalised ∧
        (objs'.codes tc).total = ((objs.codes tc).setValueRaw comp n).total

/-- All time codes are normalised. -/
def AllNormalised (objs : Objects) : Prop := ∀ tc < objs.cnt, (objs.codes tc).Normalised

variable {tc : Nat}

theorem perform_change (hchange : objs.change op = some (tc, comp, n))
    (htc : tc < objs.cnt) (hn : IsInt n) :
    objs.perform fuel op =
      (assign fuel objs.codes tc comp n).map fun codes => { objs with codes := codes } := by
  cases op with
  | construct => cases hchange
  | copy => cases hchange
  | assignFrom => cases hchange
  | invert => cases hchange
  | set =>
    cases hchange
    exact if_pos htc
  | increment =>
    cases hchange
    simp only [perform]
    rw [if_pos htc, int_of hn, Option.bind_some]
  | decrement =>
    cases hchange
    simp only [perform]
    rw [if_pos htc, int_of hn, Option.bind_some]

/-- What a change does to a normalised time code with its own mutators. -/
theorem change_spec (hchange : objs.change op = some (tc, comp, n)) (htc : tc < objs.cnt)
    (hcomp : comp ≠ .sgn) (hn : IsInt n) (hown : (objs.codes tc).Own tc)
    (hw : (objs.codes tc).Normalised) (hres : objs.perform fuel op = some objs') :
    ∃ tc', objs' = { objs with codes := Function.update objs.codes tc tc' } ∧ tc'.Normalised ∧
      tc'.total = ((objs.codes tc).setValueRaw comp n).total := by
  rw [perform_change hchange htc hn] at hres
  obtain ⟨w', hassign, rfl⟩ := Option.map_eq_some_iff.mp hres
  obtain ⟨tc', rfl, hrenorm, hhours⟩ := assign_at hcomp hown hw.toWrapped hn hassign
  exact ⟨tc', rfl, ⟨hrenorm.wrapped, hhours hw.hours_nonneg⟩, hrenorm.total⟩

theorem change_performed (hchange : objs.change op = some (tc, comp, n)) (htc : tc < objs.cnt) (hcomp : comp ≠ .sgn)
    (hn : IsInt n) (hgrid : IsInt ((objs.codes tc).setValueRaw comp n).gridPoint) (hown : (objs.codes tc).Own tc)
    (hw : (objs.codes tc).Normalised) : ∃ fuel objs', objs.perform fuel op = some objs' := by
  obtain ⟨fuel, w', hassign⟩ := assignable hcomp (w := objs.codes) hown hw hn hgrid
  rw [update_eq_self] at hassign
  refine ⟨fuel, { objs with codes := w' }, ?_⟩
  rw [perform_change hchange htc hn, hassign]
  rfl

/-! ## Runs -/

theorem toInt32_isInt (n : Int) : IsInt (toInt32 n) := by
  have hlow := Int.le_bmod (x := n) (m := 2 ^ 32) (by decide)
  have hhigh := Int.bmod_lt (x := n) (m := 2 ^ 32) (by decide)
  unfold IsInt toInt32
  constructor <;> omega

theorem construct_spec {effectiveFramerate : Nat} {quantiser : Int → Int} {gridPoint : Int}
    (hres : objs.perform fuel (.construct effectiveFramerate quantiser gridPoint) = some objs') : ∃ tc',
    objs' = ⟨objs.cnt + 1, Function.update objs.codes objs.cnt tc'⟩ ∧ tc'.Own objs.cnt ∧ tc'.Normalised := by
  simp only [perform] at hres
  by_cases hfps : 0 < effectiveFramerate ∧ effectiveFramerate < 1000
  · rw [if_pos hfps] at hres
    obtain ⟨w', hassign, rfl⟩ := Option.map_eq_some_iff.mp hres
    have hown : (setupComponentNormalisation objs.cnt effectiveFramerate quantiser).clear.Own
        objs.cnt := by
      rintro ⟨⟩ <;> rfl
    have hw : (setupComponentNormalisation objs.cnt effectiveFramerate quantiser).clear.Wrapped := by
      refine ⟨⟨?_, ?_⟩, ⟨le_refl (0 : Int), ?_⟩, ⟨le_refl (0 : Int), ?_⟩, ⟨le_refl (0 : Int), ?_⟩,
        .inl rfl, ?_⟩
      · exact Int.natCast_pos.mpr hfps.1
      · exact Int.ofNat_lt.mpr hfps.2
      · exact Int.natCast_pos.mpr hfps.1
      · exact (by decide : (0 : Int) < 60)
      · exact (by decide : (0 : Int) < 60)
      · exact (by decide : IsInt 0)
    obtain ⟨tc', rfl, hrenorm, hhours⟩ :=
      assign_spec (by decide) hown hw (toInt32_isInt gridPoint) hassign
    exact ⟨tc', rfl, hrenorm.own, hrenorm.wrapped, hhours (le_refl (0 : Int))⟩
  · rw [if_neg hfps] at hres
    cases hres

theorem AllNormalised.update {cnt : Nat} {tc' : SmpteTC} (h : objs.AllNormalised)
    (htc' : tc'.Normalised) (hcnt : cnt ≤ objs.cnt ∨ tc = objs.cnt ∧ cnt ≤ objs.cnt + 1) :
    AllNormalised ⟨cnt, Function.update objs.codes tc tc'⟩ := by
  intro id hid
  by_cases hsame : id = tc
  · subst hsame
    show (Function.update objs.codes id tc' id).Normalised
    rwa [update_self]
  · show (Function.update objs.codes tc tc' id).Normalised
    rw [update_of_ne hsame]
    have hless : id < cnt := hid
    exact h id (by omega)

/-- Operations keep the time codes normalised. -/
theorem allNormalised_step (h : objs.AllNormalised) (hcounted : objs.Counted op) (hdigits : objs.OwnDigits op)
    (hres : objs.perform fuel op = some objs') : objs'.AllNormalised := by
  have hchanged : ∀ tc comp n, objs.change op = some (tc, comp, n) → objs'.AllNormalised := by
    intro tc comp n hchange
    obtain ⟨htc, hcomp, hn, -⟩ := hcounted.2 tc comp n hchange
    obtain ⟨tc', rfl, hnormal, -⟩ :=
      change_spec hchange htc hcomp hn (hdigits tc comp n hchange) (h tc htc) hres
    exact h.update hnormal (.inl (le_refl _))
  cases op with
  | construct =>
    obtain ⟨tc', rfl, -, hnormal⟩ := construct_spec hres
    exact h.update hnormal (.inr ⟨rfl, le_refl _⟩)
  | copy o =>
    simp only [perform] at hres
    split_ifs at hres with ho
    rw [← Option.some.inj hres]
    exact h.update (h o ho) (.inr ⟨rfl, le_refl _⟩)
  | assignFrom tc o =>
    simp only [perform] at hres
    split_ifs at hres with hboth hself
    · rw [← Option.some.inj hres]
      exact h
    · rw [← Option.some.inj hres]
      exact h.update (h o hboth.2) (.inl (le_refl _))
  | set tc comp n => exact hchanged _ _ _ rfl
  | increment tc => exact hchanged _ _ _ rfl
  | decrement tc => exact hchanged _ _ _ rfl
  | invert tc => exact absurd rfl (hcounted.1 tc)

/-- **Changing components keeps time codes normalised and counts correctly**, throughout a run where only
time codes with their own mutators are changed: all time codes are normalised, and the next change
leads to a normalised time code with the total expected. -/
theorem renormalises {objs : Objects}
    (hreach : (machine.restrict fun objs op => objs.Counted op ∧ objs.OwnDigits op).Reachable objs) :
    objs.AllNormalised ∧
      ∀ op, objs.Counted op → objs.OwnDigits op → objs.Renormalises op := by
  have hall : objs.AllNormalised := by
    refine Machine.Invariant.reachable ⟨?_, ?_⟩ hreach
    · intro objs hinit tc htc
      rw [show objs.cnt = 0 from hinit] at htc
      exact absurd htc (Nat.not_lt_zero tc)
    · rintro objs op objs' h ⟨⟨hcounted, hdigits⟩, fuel, hres⟩
      exact allNormalised_step h hcounted hdigits hres
  refine ⟨hall, ?_⟩
  intro op hcounted hdigits tc comp n hchange
  obtain ⟨htc, hcomp, hn, hgrid⟩ := hcounted.2 tc comp n hchange
  have hown := hdigits tc comp n hchange
  refine ⟨change_performed hchange htc hcomp hn hgrid hown (hall tc htc), ?_⟩
  intro fuel objs' hres
  obtain ⟨tc', rfl, hnormal, htotal⟩ := change_spec hchange htc hcomp hn hown (hall tc htc) hres
  show (Function.update objs.codes tc tc' tc).Normalised ∧
    (Function.update objs.codes tc tc' tc).total = _
  rw [update_self]
  exact ⟨hnormal, htotal⟩

/-- A time code at zero with 25 frames per second, which has its own digits as the first object; all other
objects being copies of it. -/
def zeroCodes : TimeCodes := fun _ => (setupComponentNormalisation 0 25 fun n => n * 40000).clear

theorem zeroCodes_normalised (id : Nat) : (zeroCodes id).Normalised := by
  show (zeroCodes 0).Normalised
  exact ⟨⟨by decide, by decide, by decide, by decide, .inl rfl, by decide⟩, by decide⟩

theorem zeroCodes_own : (zeroCodes 0).Own 0 := by
  rintro ⟨⟩ <;> rfl

theorem perform_construct_zero :
    perform ⟨0, zeroCodes⟩ 1 (.construct 25 (fun n => n * 40000) 0) = some ⟨1, zeroCodes⟩ := by
  show ((assign 1 (Function.update zeroCodes 0 (zeroCodes 0)) 0 .frames 0).map
    fun codes => (⟨1, codes⟩ : Objects)) = _
  rw [update_eq_self]
  rfl

theorem perform_copy_zero : perform ⟨1, zeroCodes⟩ 1 (.copy 0) = some ⟨2, zeroCodes⟩ := by
  show some (⟨2, Function.update zeroCodes 1 (zeroCodes 1)⟩ : Objects) = _
  rw [update_eq_self]

/-- One frame subtracted from zero, after construction. -/
theorem renormalises_decrement : ∃ objs : Objects,
    (machine.restrict fun objs op => objs.Counted op ∧ objs.OwnDigits op).Reachable objs ∧
      (objs.codes 0).total = 0 ∧ objs.Renormalises (.decrement 0) := by
  have hreach : (machine.restrict fun objs op => objs.Counted op ∧ objs.OwnDigits op).Reachable
      ⟨1, zeroCodes⟩ :=
    ⟨⟨0, zeroCodes⟩, [.construct 25 (fun n => n * 40000) 0], rfl,
      .cons ⟨⟨⟨nofun, nofun⟩, nofun⟩, 1, perform_construct_zero⟩ (.nil _)⟩
  have hcounted : Counted ⟨1, zeroCodes⟩ (.decrement 0) := by
    refine ⟨nofun, ?_⟩
    rintro tc comp n ⟨⟩
    decide
  have hdigits : OwnDigits ⟨1, zeroCodes⟩ (.decrement 0) := by
    rintro tc comp n ⟨⟩
    exact zeroCodes_own
  exact ⟨⟨1, zeroCodes⟩, hreach, rfl, (renormalises hreach).2 _ hcounted hdigits⟩

/-- **A copy is not changed** when 30 frames are set: the digits of the copy are bound to the original. -/
theorem not_renormalises_copy : ∃ objs : Objects, (machine.restrict Counted).Reachable objs ∧ objs.AllNormalised ∧
    ∃ op, objs.Counted op ∧ ¬ objs.Renormalises op := by
  have hreach : (machine.restrict Counted).Reachable ⟨2, zeroCodes⟩ :=
    ⟨⟨0, zeroCodes⟩, [.construct 25 (fun n => n * 40000) 0, .copy 0], rfl,
      .cons ⟨⟨nofun, nofun⟩, 1, perform_construct_zero⟩
        (.cons ⟨⟨nofun, nofun⟩, 1, perform_copy_zero⟩ (.nil _))⟩
  refine ⟨⟨2, zeroCodes⟩, hreach, fun tc _ => zeroCodes_normalised tc, .set 1 .frames 30, ?_, ?_⟩
  · refine ⟨nofun, ?_⟩
    rintro tc comp n ⟨⟩
    decide
  · intro h
    obtain ⟨-, htotal⟩ := h 1 .frames 30 rfl
    -- the total of the copy is still zero
    obtain ⟨objs', hres, hzero⟩ : ∃ objs',
        perform ⟨2, zeroCodes⟩ 10 (.set 1 .frames 30) = some objs' ∧ (objs'.codes 1).total = 0 :=
      ⟨_, rfl, rfl⟩
    have hraw := (htotal 10 objs' hres).2
    rw [hzero] at hraw
    exact absurd hraw (by decide)

end Objects

end Lumiera.Lib.Time
