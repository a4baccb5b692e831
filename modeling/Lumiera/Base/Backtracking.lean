import Mathlib.Algebra.Order.Ring.Nat
import Mathlib.Data.List.Basic

/-! # Searching with backtracking

An iteration is searched step by step: each element it arrives at is the starting point of a further
iteration, and so on. What is found is the sequence of **outcomes** of the last iteration, in the order of
the search, where an outcome is either an element or an exception. As an operation on sequences of outcomes
each step is a `flatMap`, and a search ends at the first outcome; so two sequences are as good as each other
when the first outcome is the same, whatever steps are to follow. -/

namespace Lumiera

open List

universe u

/-- An iteration which ends, and may raise an exception on its way. -/
structure FiniteCore (φ : Type u) where
  /-- Whether there is an element. -/
  checkPoint : φ → Bool
  /-- The iteration after the next step, if this does not raise an exception. -/
  iterNext : φ → Option φ
  /-- A bound for the number of steps. -/
  remaining : φ → ℕ
  /-- An exhausted iteration can not be advanced. -/
  valid_of_next : ∀ {f f' : φ}, iterNext f = some f' → checkPoint f = true
  decreases : ∀ {f f' : φ}, iterNext f = some f' → remaining f' < remaining f

namespace FiniteCore

variable {φ : Type u} (C : FiniteCore φ)

/-! ## Outcomes -/

/-- **The outcomes of an iteration**: the states it goes through, and the exception which ends it. -/
def outcomes (f : φ) : List (Option φ) :=
  if C.checkPoint f then
    some f :: match _hnext : C.iterNext f with
      | none => [none]
      | some f' => outcomes f'
  else []
termination_by C.remaining f
decreasing_by exact C.decreases _hnext

/-- The outcomes of what is to be iterated, unless this raised an exception already. -/
def following (next : Option φ) : List (Option φ) := next.elim [none] C.outcomes

/-- A step takes an element to a further iteration; an exception remains. -/
def expandBy (step : φ → Option φ) (outcome : Option φ) : List (Option φ) :=
  outcome.elim [none] fun f => C.following (step f)

/-- **The outcomes of a search** by a sequence of steps. -/
def expand : List (φ → Option φ) → List (Option φ) → List (Option φ)
  | [], os => os
  | step :: steps, os => expand steps (os.flatMap (C.expandBy step))

/-- The number of times a step has to be taken, when the search does not end before. -/
def weight : List (φ → Option φ) → List (Option φ) → ℕ
  | [], _ => 0
  | step :: steps, os =>
    (os.map fun outcome => outcome.elim 0 fun f => 1 + weight steps (C.following (step f))).sum

variable {C} {f : φ} {step : φ → Option φ} {steps : List (φ → Option φ)} {os os' : List (Option φ)}

theorem outcomes_of_valid (h : C.checkPoint f = true) : C.outcomes f = some f :: C.following (C.iterNext f) := by
  rw [outcomes, if_pos h]
  split
  · next hnext => rw [hnext]; rfl
  · next f' hnext => rw [hnext]; rfl

theorem outcomes_of_exhausted (h : C.checkPoint f = false) : C.outcomes f = [] := by
  rw [outcomes, if_neg (Bool.eq_false_iff.mp h)]

theorem expand_append (steps : List (φ → Option φ)) (os os' : List (Option φ)) :
    C.expand steps (os ++ os') = C.expand steps os ++ C.expand steps os' := by
  induction steps generalizing os os' with
  | nil => rfl
  | cons step steps ih => rw [expand, flatMap_append, ih, expand, expand]

theorem expand_nil (steps : List (φ → Option φ)) : C.expand steps [] = [] := by
  induction steps with
  | nil => rfl
  | cons step steps ih => exact ih

theorem head?_expand_none (steps : List (φ → Option φ)) (os : List (Option φ)) :
    (C.expand steps (none :: os)).head? = some none := by
  induction steps generalizing os with
  | nil => rfl
  | cons step steps ih => exact ih _

theorem expand_cons_some (steps : List (φ → Option φ)) :
    C.expand (step :: steps) (some f :: os) =
      C.expand steps (C.following (step f)) ++ C.expand (step :: steps) os := by
  rw [expand, flatMap_cons, expand_append]
  rfl

theorem expand_concat (steps : List (φ → Option φ)) (os : List (Option φ)) :
    C.expand (steps ++ [step]) os = (C.expand steps os).flatMap (C.expandBy step) := by
  induction steps generalizing os with
  | nil => rfl
  | cons first steps ih => exact ih _

theorem weight_cons_some :
    C.weight (step :: steps) (some f :: os) =
      1 + C.weight steps (C.following (step f)) + C.weight (step :: steps) os := by
  rfl

end FiniteCore

/-! ## Sequences with the same first outcome -/

variable {α β γ : Type u}

/-- **Two sequences are as good as each other** for a search: whatever is searched for, the first outcome is
the same. -/
def SameFirst (as bs : List α) : Prop :=
  ∀ (β : Type u) (search : α → Option β), as.findSome? search = bs.findSome? search

namespace SameFirst

variable {as bs cs : List α} {g g' : α → List β}

theorem refl (as : List α) : SameFirst as as := by
  intro β search
  rfl

theorem trans (h : SameFirst as bs) (h' : SameFirst bs cs) : SameFirst as cs := by
  intro β search
  rw [h β search, h' β search]

theorem head?_eq (h : SameFirst as bs) : as.head? = bs.head? := by
  have hsome : ∀ xs : List α, xs.findSome? some = xs.head? := by
    rintro (_ | ⟨x, xs⟩) <;> rfl
  rw [← hsome as, ← hsome bs, h α some]

theorem findSome?_flatMap (as : List α) (g : α → List β) (h : β → Option γ) :
    (as.flatMap g).findSome? h = as.findSome? fun a => (g a).findSome? h := by
  induction as with
  | nil => rfl
  | cons a as ih =>
    rw [flatMap_cons, findSome?_append, ih, findSome?_cons]
    cases (g a).findSome? h <;> rfl

theorem flatMap (h : SameFirst as bs) (hg : ∀ a ∈ as, SameFirst (g a) (g' a)) :
    SameFirst (as.flatMap g) (bs.flatMap g') := by
  intro γ search
  have hinner : ∀ xs : List α, (∀ a ∈ xs, SameFirst (g a) (g' a)) →
      xs.findSome? (fun a => (g a).findSome? search) = xs.findSome? fun a => (g' a).findSome? search := by
    intro xs hxs
    induction xs with
    | nil => rfl
    | cons x xs ih =>
      rw [findSome?_cons, findSome?_cons, hxs x mem_cons_self γ search,
        ih fun a ha => hxs a (mem_cons_of_mem x ha)]
  rw [findSome?_flatMap, findSome?_flatMap, hinner as hg, h]

theorem map (h : SameFirst as bs) (f : α → β) : SameFirst (as.map f) (bs.map f) := by
  intro γ search
  rw [findSome?_map, findSome?_map, h]

end SameFirst

end Lumiera
