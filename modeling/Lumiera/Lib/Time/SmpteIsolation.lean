import Lumiera.Lib.Time.SmpteAssign

/-! # Isolation of SMPTE time codes

Time codes are values: changing one of them does not concern the others. In the model this is a matter of
the digits' mutators. As long as only time codes with their own mutators are changed, any operation changes
the time code it is performed on, and no other. -/

namespace Lumiera.Lib.Time

open Function SmpteTC

variable {w : TimeCodes} {tc : SmpteTC} {id fuel : Nat} {comp : Component} {n : Int}

/-- The sign stored for a number. -/
def signOf (n : Int) : Int := if n < 0 then -1 else 1

/-- Assigning the sign stores the sign of the number. -/
theorem sgn_spec {w' : TimeCodes} (h : tc.Own id) (hw : tc.Wrapped)
    (hres : assign fuel (update w id tc) id .sgn n = some w') :
    w' = update w id (tc.setValueRaw .sgn (signOf n)) := by
  rcases assign_cases h hres with ⟨hsame, rfl⟩ | ⟨less, -, hmutate⟩
  · have hsign : signOf n = (tc.component .sgn).value := by
      rw [hsame]
      rcases hw.sgn with hpos | hneg
      · show signOf tc.sgn.value = tc.sgn.value
        rw [hpos]
        rfl
      · show signOf tc.sgn.value = tc.sgn.value
        rw [hneg]
        rfl
    rw [hsign, setValueRaw_self]
  · rw [← Option.some.inj hmutate, storeSign, TimeCodes.setValueRaw_update]
    rfl

theorem signOf_inRange (tc : SmpteTC) (n : Int) : InRange tc .sgn (signOf n) := by
  unfold signOf
  split_ifs
  · exact .inr rfl
  · exact .inl rfl

theorem renormalised_sgn (h : tc.Own id) (hw : tc.Wrapped) :
    Renormalised id (tc.setValueRaw .sgn (signOf n)) (tc.setValueRaw .sgn (signOf n)) where
  own := h.setValueRaw
  wrapped := hw.setValueRaw (signOf_inRange tc n)
  total := rfl
  quantiser := rfl
  framerate := rfl

/-- The time code an operation is performed on. -/
def Operation.modified : Operation → Option Nat
  | .construct .. => none
  | .copy _ => none
  | .assignFrom tc _ => some tc
  | .set tc _ _ => some tc
  | .increment tc => some tc
  | .decrement tc => some tc
  | .invert tc => some tc

namespace Objects

variable {objs objs' : Objects} {op : Operation}

/-- The time code changed by an operation on its components, and the components with the raw value put there;
the sign is either positive or negative, and inversion is meant to change the representation only. -/
def raw (objs : Objects) : Operation → Option (Nat × SmpteTC)
  | .set tc .sgn n => some (tc, (objs.codes tc).setValueRaw .sgn (signOf n))
  | .set tc comp n => some (tc, (objs.codes tc).setValueRaw comp n)
  | .increment tc => some (tc, (objs.codes tc).setValueRaw .frames
      ((objs.codes tc).frames.value + (objs.codes tc).sgn.value))
  | .decrement tc => some (tc, (objs.codes tc).setValueRaw .frames
      ((objs.codes tc).frames.value - (objs.codes tc).sgn.value))
  | .invert tc => some (tc, objs.codes tc)
  | _ => none

/-- The values assigned are of type `int`. -/
def Typed (op : Operation) : Prop := ∀ tc comp n, op = .set tc comp n → IsInt n

/-- The time code changed has its own mutators, not those of another one. -/
def OwnChange (objs : Objects) (op : Operation) : Prop :=
  ∀ tc raw, objs.raw op = some (tc, raw) → (objs.codes tc).Own tc

/-- **Isolation** of the effect of an operation: the other time codes stay as they are, and the time code
changed is normalised, with the total given by its own components. -/
structure Isolated (objs : Objects) (op : Operation) (objs' : Objects) : Prop where
  others : ∀ id < objs.cnt, op.modified ≠ some id → objs'.codes id = objs.codes id
  changed : ∀ tc raw, objs.raw op = some (tc, raw) → Renormalised tc raw (objs'.codes tc)
  hours : ∀ tc raw, objs.raw op = some (tc, raw) → op ≠ .invert tc →
    0 ≤ (objs.codes tc).hours.value → 0 ≤ (objs'.codes tc).hours.value

/-- All time codes are wrapped. -/
def AllWrapped (objs : Objects) : Prop := ∀ tc < objs.cnt, (objs.codes tc).Wrapped

/-! ## Single operations -/

theorem assign_renormalised {tc : Nat} (hcomp : comp ≠ .sgn) (hw : objs.AllWrapped)
    (htc : tc < objs.cnt) (hn : IsInt n) (hown : (objs.codes tc).Own tc)
    (hres : (assign fuel objs.codes tc comp n).map (fun codes => { objs with codes := codes }) =
      some objs') :
    ∃ tc', objs' = { objs with codes := update objs.codes tc tc' } ∧
      Renormalised tc ((objs.codes tc).setValueRaw comp n) tc' ∧
        (0 ≤ (objs.codes tc).hours.value → 0 ≤ tc'.hours.value) := by
  obtain ⟨w', hassign, rfl⟩ := Option.map_eq_some_iff.mp hres
  obtain ⟨tc', rfl, hrenorm, hhours⟩ := assign_at hcomp hown (hw tc htc) hn hassign
  exact ⟨tc', rfl, hrenorm, hhours⟩

/-- Changing a time code with its own mutators affects only this time code. -/
theorem perform_raw {tc : Nat} {raw : SmpteTC} (hw : objs.AllWrapped) (htyped : Typed op)
    (hown : objs.OwnChange op) (hraw : objs.raw op = some (tc, raw))
    (hres : objs.perform fuel op = some objs') :
    ∃ tc', objs' = { objs with codes := update objs.codes tc tc' } ∧
      Renormalised tc raw tc' ∧
        (op ≠ .invert tc → 0 ≤ (objs.codes tc).hours.value → 0 ≤ tc'.hours.value) := by
  cases op with
  | construct => cases hraw
  | copy => cases hraw
  | assignFrom => cases hraw
  | set tc comp n =>
    have hn : IsInt n := htyped tc comp n rfl
    simp only [perform] at hres
    split_ifs at hres with htc
    by_cases hsgn : comp = .sgn
    · subst hsgn
      have hown' := hown _ _ hraw
      cases hraw
      obtain ⟨w', hassign, rfl⟩ := Option.map_eq_some_iff.mp hres
      rw [← update_eq_self tc objs.codes] at hassign
      rw [sgn_spec hown' (hw tc htc) hassign]
      exact ⟨_, rfl, renormalised_sgn hown' (hw tc htc), fun _ h => h⟩
    · have hraw' : objs.raw (.set tc comp n) = some (tc, (objs.codes tc).setValueRaw comp n) := by
        cases comp with
        | sgn => exact absurd rfl hsgn
        | _ => rfl
      rw [hraw'] at hraw
      cases hraw
      obtain ⟨tc', rfl, hrenorm, hhours⟩ :=
        assign_renormalised hsgn hw htc hn (hown _ _ hraw') hres
      exact ⟨tc', rfl, hrenorm, fun _ => hhours⟩
  | increment tc =>
    have hown' := hown _ _ hraw
    cases hraw
    simp only [perform] at hres
    split_ifs at hres with htc
    obtain ⟨codes, hbind, hcodes⟩ := Option.map_eq_some_iff.mp hres
    obtain ⟨m, hint, hassign⟩ := Option.bind_eq_some_iff.mp hbind
    obtain ⟨rfl, hn⟩ := int_eq_some hint
    rw [← hcodes]
    obtain ⟨tc', heq, hrenorm, hhours⟩ := assign_renormalised (by decide) hw htc hn hown'
      (Option.map_eq_some_iff.mpr ⟨codes, hassign, rfl⟩)
    exact ⟨tc', heq, hrenorm, fun _ => hhours⟩
  | decrement tc =>
    have hown' := hown _ _ hraw
    cases hraw
    simp only [perform] at hres
    split_ifs at hres with htc
    obtain ⟨codes, hbind, hcodes⟩ := Option.map_eq_some_iff.mp hres
    obtain ⟨m, hint, hassign⟩ := Option.bind_eq_some_iff.mp hbind
    obtain ⟨rfl, hn⟩ := int_eq_some hint
    rw [← hcodes]
    obtain ⟨tc', heq, hrenorm, hhours⟩ := assign_renormalised (by decide) hw htc hn hown'
      (Option.map_eq_some_iff.mpr ⟨codes, hassign, rfl⟩)
    exact ⟨tc', heq, hrenorm, fun _ => hhours⟩
  | invert tc =>
    have hown' := hown _ _ hraw
    cases hraw
    simp only [perform] at hres
    split_ifs at hres with htc
    obtain ⟨w', hinvert, rfl⟩ := Option.map_eq_some_iff.mp hres
    rw [← update_eq_self tc objs.codes] at hinvert
    obtain ⟨tc', rfl, hrenorm, -⟩ := invert_spec hown' (hw tc htc) hinvert
    exact ⟨tc', rfl, hrenorm, fun hother => absurd rfl hother⟩

theorem perform_placed (hw : objs.AllWrapped) (hraw : objs.raw op = none) (hres : objs.perform fuel op = some objs') :
    ∃ tc cnt tc', objs' = ⟨cnt, update objs.codes tc tc'⟩ ∧ tc'.Wrapped ∧ objs.cnt ≤ cnt ∧
    (tc = objs.cnt ∧ cnt = objs.cnt + 1 ∨ op.modified = some tc ∧ cnt = objs.cnt) := by
  cases op with
  | construct =>
    obtain ⟨tc', rfl, -, hnormal⟩ := construct_spec hres
    exact ⟨_, _, tc', rfl, hnormal.toWrapped, Nat.le_succ _, .inl ⟨rfl, rfl⟩⟩
  | copy o =>
    simp only [perform] at hres
    split_ifs at hres with ho
    exact ⟨_, _, _, (Option.some.inj hres).symm, hw o ho, Nat.le_succ _, .inl ⟨rfl, rfl⟩⟩
  | assignFrom tc o =>
    simp only [perform] at hres
    split_ifs at hres with hboth hself
    · refine ⟨tc, objs.cnt, objs.codes tc, ?_, hw tc hboth.1, le_refl _, .inr ⟨rfl, rfl⟩⟩
      rw [update_eq_self]
      exact (Option.some.inj hres).symm
    · exact ⟨_, _, _, (Option.some.inj hres).symm, hw o hboth.2, le_refl _, .inr ⟨rfl, rfl⟩⟩
  | set tc comp n => cases comp <;> cases hraw
  | increment => cases hraw
  | decrement => cases hraw
  | invert => cases hraw

theorem modified_of_raw {tc : Nat} {raw : SmpteTC} (hraw : objs.raw op = some (tc, raw)) : op.modified = some tc := by
  cases op with
  | construct => cases hraw
  | copy => cases hraw
  | assignFrom => cases hraw
  | set tc comp n =>
    cases comp <;> cases hraw <;> rfl
  | increment => cases hraw; rfl
  | decrement => cases hraw; rfl
  | invert => cases hraw; rfl

/-- Operations are isolated, given that the time code changed has its own mutators. -/
theorem perform_isolated (hw : objs.AllWrapped) (htyped : Typed op) (hown : objs.OwnChange op)
    (hres : objs.perform fuel op = some objs') :
    objs.Isolated op objs' ∧ objs'.AllWrapped ∧ objs.cnt ≤ objs'.cnt := by
  cases hraw : objs.raw op with
  | none =>
    obtain ⟨tc, cnt, tc', rfl, hwrapped, hcnt, hplace⟩ := perform_placed hw hraw hres
    refine ⟨⟨?_, ?_, ?_⟩, ?_, hcnt⟩
    · intro id hid hother
      have hne : id ≠ tc := by
        rintro rfl
        rcases hplace with ⟨heq, -⟩ | ⟨hsame, -⟩
        · omega
        · exact hother hsame
      exact update_of_ne hne _ _
    · intro tc raw hchange
      exact nomatch hraw.symm.trans hchange
    · intro tc raw hchange
      exact nomatch hraw.symm.trans hchange
    · intro id hid
      have hless : id < cnt := hid
      show (update objs.codes tc tc' id).Wrapped
      by_cases hsame : id = tc
      · subst hsame
        rwa [update_self]
      · rw [update_of_ne hsame]
        exact hw id (by omega)
  | some change =>
    obtain ⟨tc, raw⟩ := change
    obtain ⟨tc', rfl, hrenorm, hhours⟩ := perform_raw hw htyped hown hraw hres
    refine ⟨⟨?_, ?_, ?_⟩, ?_, le_refl _⟩
    · intro id _ hother
      rw [modified_of_raw hraw] at hother
      have hne : id ≠ tc := fun hsame => hother (congrArg some hsame.symm)
      exact update_of_ne hne _ _
    · intro _ _ hchange
      cases hraw.symm.trans hchange
      show Renormalised tc raw (update objs.codes tc tc' tc)
      rwa [update_self]
    · intro _ _ hchange hop
      cases hraw.symm.trans hchange
      show _ → 0 ≤ (update objs.codes tc tc' tc).hours.value
      rw [update_self]
      exact hhours hop
    · intro id hid
      show (update objs.codes tc tc' id).Wrapped
      by_cases hsame : id = tc
      · subst hsame
        rw [update_self]
        exact hrenorm.wrapped
      · rw [update_of_ne hsame]
        exact hw id hid

/-! ## Runs -/

theorem allWrapped_reachable
    (hreach : (machine.restrict fun objs op => Typed op ∧ objs.OwnChange op).Reachable objs) :
    objs.AllWrapped := by
  refine Machine.Invariant.reachable ⟨?_, ?_⟩ hreach
  · intro objs hinit tc htc
    rw [show objs.cnt = 0 from hinit] at htc
    exact absurd htc (Nat.not_lt_zero tc)
  · rintro objs op objs' h ⟨⟨htyped, hown⟩, fuel, hres⟩
    exact (perform_isolated h htyped hown hres).2.1

theorem run_isolated {ops : List Operation}
    (hrun : (machine.restrict fun objs op => Typed op ∧ objs.OwnChange op).Run objs ops objs')
    (hw : objs.AllWrapped) (hid : id < objs.cnt) (hother : ∀ op ∈ ops, op.modified ≠ some id) :
    objs'.codes id = objs.codes id := by
  induction hrun with
  | nil => rfl
  | cons hstep _ ih =>
    obtain ⟨⟨htyped, hown⟩, fuel, hres⟩ := hstep
    obtain ⟨hisolated, hw', hcnt⟩ := perform_isolated hw htyped hown hres
    rw [ih hw' (by omega) fun op hop => hother op (List.mem_cons_of_mem _ hop)]
    exact hisolated.others id hid (hother _ List.mem_cons_self)

/-- **Time codes are values**, throughout a run where all time codes changed have their own mutators: any
sequence of operations leaves the components and the time of all other time codes unchanged, and each
operation normalises the time code it is performed on. -/
theorem isolation {objs : Objects}
    (hreach : (machine.restrict fun objs op => Typed op ∧ objs.OwnChange op).Reachable objs) :
    (∀ ops objs', (machine.restrict fun objs op => Typed op ∧ objs.OwnChange op).Run objs ops objs' →
      ∀ id < objs.cnt, (∀ op ∈ ops, op.modified ≠ some id) →
        objs'.codes id = objs.codes id ∧ (objs'.codes id).value = (objs.codes id).value) ∧
    ∀ op fuel objs', Typed op → objs.OwnChange op → objs.perform fuel op = some objs' →
      objs.Isolated op objs' := by
  have hw := allWrapped_reachable hreach
  constructor
  · intro ops objs' hrun id hid hother
    have hsame := run_isolated hrun hw hid hother
    exact ⟨hsame, by rw [hsame]⟩
  · intro op fuel objs' htyped hown hres
    exact (perform_isolated hw htyped hown hres).1

/-- The original is changed while there is a copy. -/
theorem isolation_copy : ∃ objs objs' : Objects,
    (machine.restrict fun objs op => Typed op ∧ objs.OwnChange op).Reachable objs ∧
      objs.perform 10 (.set 0 .frames 30) = some objs' ∧
        objs.Isolated (.set 0 .frames 30) objs' := by
  have hreach : (machine.restrict fun objs op => Typed op ∧ objs.OwnChange op).Reachable
      ⟨2, zeroCodes⟩ :=
    ⟨⟨0, zeroCodes⟩, [.construct 25 (fun n => n * 40000) 0, .copy 0], rfl,
      .cons ⟨⟨nofun, nofun⟩, 1, perform_construct_zero⟩
        (.cons ⟨⟨nofun, nofun⟩, 1, perform_copy_zero⟩ (.nil _))⟩
  have htyped : Typed (.set 0 .frames 30) := by
    rintro tc comp n ⟨⟩
    decide
  have hown : OwnChange ⟨2, zeroCodes⟩ (.set 0 .frames 30) := by
    rintro tc raw ⟨⟩
    exact zeroCodes_own
  exact ⟨⟨2, zeroCodes⟩, _, hreach, rfl, (isolation hreach).2 _ 10 _ htyped hown rfl⟩

/-- **The original is changed** through its copy, when 30 frames are set there. -/
theorem not_isolated_copy : ∃ objs objs' : Objects, machine.Reachable objs ∧ objs.cnt = 2 ∧
    objs.perform 10 (.set 1 .frames 30) = some objs' ∧
      (objs'.codes 1).value = (objs.codes 1).value ∧ (objs'.codes 0).value ≠ (objs.codes 0).value := by
  have hreach : machine.Reachable ⟨2, zeroCodes⟩ :=
    ⟨⟨0, zeroCodes⟩, [.construct 25 (fun n => n * 40000) 0, .copy 0], rfl,
      .cons ⟨1, perform_construct_zero⟩ (.cons ⟨1, perform_copy_zero⟩ (.nil _))⟩
  exact ⟨⟨2, zeroCodes⟩, _, hreach, rfl, rfl, by decide, by decide⟩

end Objects

end Lumiera.Lib.Time
