/-! # Computations which may raise

An **attempt** at a computation on a state: it is done with a result, or an exception leaves it with
the state as it is at this point, or the program is halted. `Attempt.Sat` states what holds in the
first two cases and that the third one does not occur; its rules compose along `Attempt.bind` and
along a loop which collects results (`forEach`). -/

namespace Lumiera

universe u v w

/-- What comes of a computation on a state `σ` with a result `α`. -/
inductive Attempt (σ : Type u) (α : Type v)
  | ok (a : α) (s : σ)
  | raised (s : σ)
  | halted
  deriving Repr

namespace Attempt

variable {σ : Type u} {α : Type v} {β : Type w}

/-- Go on with the result and the state, unless an exception was raised. -/
def bind (o : Attempt σ α) (f : α → σ → Attempt σ β) : Attempt σ β :=
  match o with
  | ok a s => f a s
  | raised s => raised s
  | halted => halted

@[simp] theorem bind_ok (a : α) (s : σ) (f : α → σ → Attempt σ β) : (ok a s).bind f = f a s := rfl

@[simp] theorem bind_raised (s : σ) (f : α → σ → Attempt σ β) : (raised s).bind f = raised s := rfl

@[simp] theorem bind_halted (f : α → σ → Attempt σ β) : (halted : Attempt σ α).bind f = halted := rfl

/-- **The attempt is as required**: the result and state when it is done, the state when an
exception is raised. -/
def Sat (o : Attempt σ α) (post : α → σ → Prop) (exc : σ → Prop) : Prop :=
  match o with
  | ok a s => post a s
  | raised s => exc s
  | halted => False

variable {o : Attempt σ α} {post post' : α → σ → Prop} {exc exc' : σ → Prop} {s : σ}

@[simp] theorem sat_ok {a : α} : (ok a s).Sat post exc ↔ post a s := Iff.rfl

@[simp] theorem sat_raised : (raised s : Attempt σ α).Sat post exc ↔ exc s := Iff.rfl

theorem Sat.mono (h : o.Sat post exc) (hpost : ∀ a s, post a s → post' a s) (hexc : ∀ s, exc s → exc' s) :
    o.Sat post' exc' := by
  cases o with
  | ok a s => exact hpost a s h
  | raised s => exact hexc s h
  | halted => exact h

variable {f : α → σ → Attempt σ β}

/-- One computation after the other; an exception of the first one is an exception of the whole. -/
theorem Sat.bind {next : β → σ → Prop} (h : o.Sat post exc) (hexc : ∀ s, exc s → exc' s)
    (hnext : ∀ a s, post a s → (f a s).Sat next exc') : (o.bind f).Sat next exc' := by
  cases o with
  | ok a s => exact hnext a s h
  | raised s => exact hexc s h
  | halted => exact h

/-- Whether an exception leaves a state of this kind. -/
def leaves (o : Attempt σ α) (p : σ → Bool) : Bool :=
  match o with
  | raised s => p s
  | _ => false

theorem exists_raised_of_leaves {p : σ → Bool} (h : o.leaves p = true) : ∃ s, o = raised s ∧ p s = true := by
  cases o with
  | ok a s => cases h
  | raised s => exact ⟨s, rfl, h⟩
  | halted => cases h

/-- The same attempt, at a part of a larger state. -/
def within {τ : Type w} (o : Attempt σ α) (put : σ → τ) : Attempt τ α :=
  match o with
  | ok a s => ok a (put s)
  | raised s => raised (put s)
  | halted => halted

theorem sat_within {τ : Type w} {put : σ → τ} {post : α → τ → Prop} {exc : τ → Prop} :
    (o.within put).Sat post exc ↔ o.Sat (fun a s => post a (put s)) (fun s => exc (put s)) := by
  cases o <;> rfl

/-- The state which is left behind, unless the program is halted. -/
def state (o : Attempt σ α) : Option σ :=
  match o with
  | ok _ s => some s
  | raised s => some s
  | halted => none

/-- **Whatever state is left behind** is as required. -/
def Yields (o : Attempt σ α) (P : σ → Prop) : Prop := ∀ s, o.state = some s → P s

variable {P : σ → Prop}

@[simp] theorem yields_ok {a : α} : (ok a s).Yields P ↔ P s :=
  ⟨fun h => h s rfl, fun h _ hs => Option.some.inj hs ▸ h⟩

@[simp] theorem yields_raised : (raised s : Attempt σ α).Yields P ↔ P s :=
  ⟨fun h => h s rfl, fun h _ hs => Option.some.inj hs ▸ h⟩

@[simp] theorem yields_halted : (halted : Attempt σ α).Yields P := fun _ hs => by cases hs

theorem Yields.bind {Q : σ → Prop} (h : o.Yields P) (hexc : ∀ s, P s → Q s)
    (hnext : ∀ a s, P s → (f a s).Yields Q) : (o.bind f).Yields Q := by
  cases o with
  | ok a s => exact hnext a s (yields_ok.mp h)
  | raised s => exact yields_raised.mpr (hexc s (yields_raised.mp h))
  | halted => exact yields_halted

/-- A loop over a list, which collects the results. -/
def forEach (f : α → σ → Attempt σ β) : List α → σ → Attempt σ (List β)
  | [], s => ok [] s
  | a :: as, s => (f a s).bind fun b s => (forEach f as s).bind fun bs s => ok (b :: bs) s

/-- The rule for a loop: an invariant on what remains to be done, the results so far, and the state. -/
theorem forEach_sat {I : List α → List β → σ → Prop}
    (hstep : ∀ a as bs s, I (a :: as) bs s → (f a s).Sat (fun b t => I as (bs ++ [b]) t) exc) {as : List α}
    {bs : List β} (h : I as bs s) : (forEach f as s).Sat (fun more t => I [] (bs ++ more) t) exc := by
  induction as generalizing bs s with
  | nil =>
    rw [forEach, sat_ok, List.append_nil]
    exact h
  | cons a as ih =>
    refine (hstep a as bs s h).bind (fun _ hs => hs) fun b t ht => ?_
    refine (ih ht).bind (fun _ hs => hs) fun more u hu => ?_
    simpa using hu

end Attempt

end Lumiera
