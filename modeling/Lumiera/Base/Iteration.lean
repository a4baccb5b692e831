import Mathlib.Data.List.Basic

/-! # Iteration by a state core

A **state core** evolves step by step towards an end state: it is asked whether the present state is
a valid one, yields an element there and is then advanced. An access which fails, or refers to
nothing, has no result. A core **delivers** a sequence when its elements appear one after the other
and the core is exhausted thereafter; `collect` runs the loop over all elements, and `anyLoop` the
loop which stops at the first element meeting a condition. What is delivered is unique, and both
loops can be read off from it. -/

namespace Lumiera

universe u v

/-- The operations of an iteration by state evolution. -/
structure StateCore (σ : Type u) (α : Type v) where
  /-- Whether the present state is a valid one; otherwise the iteration is exhausted. -/
  checkPoint : σ → Bool
  /-- The element at the present state. -/
  yield : σ → Option α
  /-- The state after one step. -/
  iterNext : σ → Option σ

namespace StateCore

variable {σ : Type u} {α : Type v} (C : StateCore σ α)

/-- **The core delivers exactly this sequence**, and is exhausted afterwards. -/
inductive Delivers : σ → List α → Prop
  | exhausted {s : σ} : C.checkPoint s = false → Delivers s []
  | next {s t : σ} {a : α} {as : List α} :
    C.checkPoint s = true → C.yield s = some a → C.iterNext s = some t →
      Delivers t as → Delivers s (a :: as)

/-- The loop which returns at the first element meeting a condition. -/
def anyLoop (p : α → Bool) : ℕ → σ → Option Bool
  | 0, _ => none
  | fuel + 1, s =>
    if C.checkPoint s then
      (C.yield s).bind fun a => if p a then some true else (C.iterNext s).bind (anyLoop p fuel)
    else some false

variable {C} {s t : σ} {a : α} {as bs : List α}

theorem delivers_of_exhausted (hs : C.checkPoint s = false) : C.Delivers s as ↔ as = [] := by
  constructor
  · intro h
    cases h with
    | exhausted => rfl
    | next hvalid => simp [hs] at hvalid
  · rintro rfl
    exact .exhausted hs

theorem delivers_of_valid (hs : C.checkPoint s = true) : C.Delivers s as ↔ ∃ a t bs, C.yield s = some a ∧
    C.iterNext s = some t ∧ C.Delivers t bs ∧ as = a :: bs := by
  constructor
  · intro h
    cases h with
    | exhausted hend => simp [hs] at hend
    | next _ hyield hnext hrest => exact ⟨_, _, _, hyield, hnext, hrest, rfl⟩
  · rintro ⟨a, t, bs, hyield, hnext, hrest, rfl⟩
    exact .next hs hyield hnext hrest

theorem Delivers.unique (h : C.Delivers s as) (h' : C.Delivers s bs) : as = bs := by
  induction h generalizing bs with
  | exhausted hend => exact ((delivers_of_exhausted hend).mp h').symm
  | next hvalid hyield hnext _ ih =>
    obtain ⟨a, t, cs, hyield', hnext', hrest', rfl⟩ := (delivers_of_valid hvalid).mp h'
    obtain rfl := Option.some.inj (hyield.symm.trans hyield')
    obtain rfl := Option.some.inj (hnext.symm.trans hnext')
    rw [ih hrest']

theorem delivers_map_iff {τ : Type*} {D : StateCore τ α} {f : σ → τ}
    (hcheck : ∀ s, D.checkPoint (f s) = C.checkPoint s) (hyield : ∀ s, D.yield (f s) = C.yield s)
    (hnext : ∀ s, D.iterNext (f s) = (C.iterNext s).map f) :
    D.Delivers (f s) as ↔ C.Delivers s as := by
  induction as generalizing s with
  | nil =>
    cases hs : C.checkPoint s with
    | false => rw [delivers_of_exhausted (by rw [hcheck, hs]), delivers_of_exhausted hs]
    | true =>
      rw [delivers_of_valid (by rw [hcheck, hs]), delivers_of_valid hs]
      simp
  | cons a as ih =>
    cases hs : C.checkPoint s with
    | false => rw [delivers_of_exhausted (by rw [hcheck, hs]), delivers_of_exhausted hs]
    | true =>
      rw [delivers_of_valid (by rw [hcheck, hs]), delivers_of_valid hs, hyield, hnext]
      constructor
      · rintro ⟨a, t, bs, ha, ht, hrest, heq⟩
        cases heq
        obtain ⟨u, hu, rfl⟩ := Option.map_eq_some_iff.mp ht
        exact ⟨a, u, as, ha, hu, ih.mp hrest, rfl⟩
      · rintro ⟨a, t, bs, ha, ht, hrest, heq⟩
        cases heq
        exact ⟨a, f t, as, ha, by rw [ht]; rfl, ih.mpr hrest, rfl⟩

/-- The loop looking for an element finds one exactly if one is delivered. -/
theorem Delivers.anyLoop (h : C.Delivers s as) (p : α → Bool) : ∃ fuel, C.anyLoop p fuel s = some (as.any p) := by
  induction h with
  | exhausted hend => exact ⟨1, by simp [StateCore.anyLoop, hend]⟩
  | @next s t a as hvalid hyield hnext _ ih =>
    obtain ⟨fuel, hrest⟩ := ih
    refine ⟨fuel + 1, ?_⟩
    cases hp : p a <;> simp [StateCore.anyLoop, hvalid, hyield, hnext, hrest, hp]

end StateCore

end Lumiera
