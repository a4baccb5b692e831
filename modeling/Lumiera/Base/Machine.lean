import Mathlib.Logic.Relation

/-! # Labelled machines and the invariants of their runs

A **machine** is a set of initial states together with a labelled step relation. A **run** is a
finite sequence of steps, and an **invariant** is a property that holds initially and is kept by
every step; `Invariant.reachable` is the induction which carries it to every reachable state, so
that a development states what one step preserves and never repeats the induction over runs.
`Machine.restrict` confines a machine to the steps meeting a side condition, which is how a
property that fails on some steps only is stated about whole runs. `Machine.ofFun` is the machine
of a partial step function, whose runs can be evaluated (`exec`). -/

namespace Lumiera

universe u v

/-- A labelled transition system with a set of initial states. -/
structure Machine (σ : Type u) (α : Type v) where
  /-- The states a run may start in. -/
  init : σ → Prop
  /-- `step s a t`: the action `a` takes the state `s` to the state `t`. -/
  step : σ → α → σ → Prop

namespace Machine

variable {σ : Type u} {α : Type v}

/-- `Run M s as t`: performing the actions `as` one after the other leads from `s` to `t`. -/
inductive Run (M : Machine σ α) : σ → List α → σ → Prop
  | nil (s : σ) : Run M s [] s
  | cons {s t u : σ} {a : α} {as : List α} :
      M.step s a t → Run M t as u → Run M s (a :: as) u

/-- A state is **reachable** when some run from an initial state ends in it. -/
def Reachable (M : Machine σ α) (s : σ) : Prop := ∃ s₀ as, M.init s₀ ∧ M.Run s₀ as s

/-- An **invariant**: it holds in every initial state and every step keeps it. -/
structure Invariant (M : Machine σ α) (P : σ → Prop) : Prop where
  init : ∀ s, M.init s → P s
  step : ∀ s a t, P s → M.step s a t → P t

variable {M : Machine σ α} {P : σ → Prop}

variable {s t : σ} {as : List α}

theorem Run.keeps (hrun : M.Run s as t) (hstep : ∀ s a t, P s → M.step s a t → P t) (hs : P s) : P t := by
  induction hrun with
  | nil s => exact hs
  | cons hfirst _ ih => exact ih (hstep _ _ _ hs hfirst)

theorem Run.append {u : σ} {bs : List α} (hrun : M.Run s as t) (hnext : M.Run t bs u) : M.Run s (as ++ bs) u := by
  induction hrun with
  | nil s => exact hnext
  | cons hfirst _ ih => exact .cons hfirst (ih hnext)

/-- An invariant holds in every reachable state. -/
theorem Invariant.reachable (h : M.Invariant P) (hs : M.Reachable s) : P s := by
  obtain ⟨s₀, as, hinit, hrun⟩ := hs
  exact hrun.keeps h.step (h.init s₀ hinit)

theorem Reachable.of_init (hs : M.init s) : M.Reachable s := ⟨s, [], hs, .nil s⟩

theorem Reachable.run (hs : M.Reachable s) (hrun : M.Run s as t) : M.Reachable t := by
  obtain ⟨s₀, bs, hinit, hprev⟩ := hs
  exact ⟨s₀, bs ++ as, hinit, hprev.append hrun⟩

theorem Reachable.step {a : α} (hs : M.Reachable s) (h : M.step s a t) : M.Reachable t :=
  hs.run (.cons h (.nil t))

/-- The machine with the same initial states, confined to the steps which meet `C`. -/
def restrict (M : Machine σ α) (C : σ → α → Prop) : Machine σ α where
  init := M.init
  step s a t := C s a ∧ M.step s a t

/-- The machine of a partial step function: an action which has no result cannot be performed. -/
def ofFun (s₀ : σ) (f : σ → α → Option σ) : Machine σ α where
  init s := s = s₀
  step s a t := f s a = some t

/-- Perform a list of actions with a partial step function. -/
def exec (f : σ → α → Option σ) : σ → List α → Option σ
  | s, [] => some s
  | s, a :: as => (f s a).bind (exec f · as)

variable {f : σ → α → Option σ}

/-- **The rule for a loop which may fail**: each step goes on from a condition on the state and what
remains to be done, and extends the relation established by the steps thereafter. -/
theorem foldlM_rule {C : List α → σ → Prop} {R : List α → σ → σ → Prop} (hnil : ∀ s, C [] s → R [] s s)
    (hcons : ∀ a as s, C (a :: as) s → ∃ t, f s a = some t ∧ C as t ∧ ∀ u, R as t u → R (a :: as) s u)
    (h : C as s) : ∃ u, as.foldlM f s = some u ∧ R as s u := by
  induction as generalizing s with
  | nil => exact ⟨s, rfl, hnil s h⟩
  | cons a as ih =>
    obtain ⟨t, hstep, hnext, hextend⟩ := hcons a as s h
    obtain ⟨u, hrest, hrel⟩ := ih hnext
    refine ⟨u, ?_, hextend u hrel⟩
    rw [List.foldlM_cons, hstep]
    exact hrest

theorem foldlM_fixed (h : ∀ a ∈ as, f s a = some s) : as.foldlM f s = some s := by
  induction as with
  | nil => rfl
  | cons a as ih =>
    rw [List.foldlM_cons, h a List.mem_cons_self]
    exact ih fun b hb => h b (List.mem_cons_of_mem a hb)

theorem run_ofFun_iff {s₀ : σ} : (ofFun s₀ f).Run s as t ↔ exec f s as = some t := by
  induction as generalizing s with
  | nil =>
    constructor
    · rintro ⟨⟩; rfl
    · rintro ⟨⟩; exact .nil _
  | cons a as ih =>
    constructor
    · intro h
      cases h with
      | cons hstep hrun => exact Option.bind_eq_some_iff.mpr ⟨_, hstep, ih.mp hrun⟩
    · intro h
      obtain ⟨u, hu, hrest⟩ := Option.bind_eq_some_iff.mp h
      exact .cons hu (ih.mpr hrest)

theorem reachable_of_exec {s₀ : σ} (as : List α) (h : exec f s₀ as = some t) : (ofFun s₀ f).Reachable t :=
  ⟨s₀, as, rfl, run_ofFun_iff.mpr h⟩

theorem exists_reachable_of_exec (f : σ → α → Option σ) (s₀ : σ) (as : List α) (p : σ → Bool)
    (h : (exec f s₀ as).any p = true) : ∃ t, (ofFun s₀ f).Reachable t ∧ p t = true := by
  cases hexec : exec f s₀ as with
  | none => simp [hexec] at h
  | some t => exact ⟨t, reachable_of_exec as hexec, by simpa [hexec] using h⟩

theorem Run.mono {N : Machine σ α} (hstep : ∀ s a t, M.step s a t → N.step s a t) (hrun : M.Run s as t) :
    N.Run s as t := by
  induction hrun with
  | nil s => exact .nil s
  | cons hfirst _ ih => exact .cons (hstep _ _ _ hfirst) ih

theorem Reachable.mono {N : Machine σ α} (hinit : ∀ s, M.init s → N.init s)
    (hstep : ∀ s a t, M.step s a t → N.step s a t) (hs : M.Reachable s) : N.Reachable s := by
  obtain ⟨s₀, as, hs₀, hrun⟩ := hs
  exact ⟨s₀, as, hinit s₀ hs₀, hrun.mono hstep⟩

variable {C : σ → α → Prop}

theorem Reachable.of_restrict (h : (M.restrict C).Reachable s) : M.Reachable s := by
  have hstep : ∀ s a t, (M.restrict C).step s a t → M.step s a t := fun _ _ _ h => h.2
  exact Reachable.mono (M := M.restrict C) (N := M) (fun _ hs => hs) hstep h

/-- A partial step function which refuses the actions not meeting `C`. -/
def confine (C : σ → α → Prop) [∀ s a, Decidable (C s a)] (f : σ → α → Option σ) (s : σ) (a : α) :
    Option σ :=
  if C s a then f s a else none

theorem restrict_reachable_of_exec [∀ s a, Decidable (C s a)] {s₀ : σ} (as : List α)
    (h : exec (confine C f) s₀ as = some t) : ((ofFun s₀ f).restrict C).Reachable t := by
  have hstep : ∀ s a t, (ofFun s₀ (confine C f)).step s a t →
      ((ofFun s₀ f).restrict C).step s a t := by
    intro s a t hs
    by_cases hc : C s a
    · exact ⟨hc, by simpa [ofFun, confine, hc] using hs⟩
    · simp [ofFun, confine, hc] at hs
  exact ⟨s₀, as, rfl, (run_ofFun_iff.mpr h).mono hstep⟩

theorem exists_restrict_reachable_of_exec (C : σ → α → Prop) [∀ s a, Decidable (C s a)] (f : σ → α → Option σ)
    (s₀ : σ) (as : List α) (p : σ → Bool) (h : (exec (confine C f) s₀ as).any p = true) : ∃ t,
    ((ofFun s₀ f).restrict C).Reachable t ∧ p t = true := by
  cases hexec : exec (confine C f) s₀ as with
  | none => simp [hexec] at h
  | some t => exact ⟨t, restrict_reachable_of_exec as hexec, by simpa [hexec] using h⟩

end Machine

end Lumiera
