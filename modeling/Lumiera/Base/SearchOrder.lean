import Mathlib.Data.List.Pairwise

/-! # The order of a search

A sequence of choices is to be made, each one among some candidates, which are tried in a given order; a test
decides if a candidate is approved, and may raise an exception. Backtracking finds a sequence of choices unless
there is none, but it has to pass the exceptions: the search comes to an exception if there is a sequence of
choices leading to it, and no complete one is tried before. -/

namespace Lumiera

open List

universe u

/-- **One choice**, which depends on the one made before. -/
structure Choice (α : Type u) where
  candidates : Option α → List α
  test : α → Option Bool
  /-- The order in which candidates are tried. -/
  ahead : α → α → Prop
  asymm : ∀ {i j : α}, ahead i j → ¬ ahead j i
  sorted : ∀ prev, (candidates prev).Pairwise ahead

namespace Choice

variable {α : Type u}

/-! ## The search -/

/-- The candidates approved, up to an exception. -/
def approved (test : α → Option Bool) : List α → List (Option α)
  | [] => []
  | i :: is =>
    match test i with
    | none => [none]
    | some true => some i :: approved test is
    | some false => approved test is

/-- **What the search comes to**, in this order: `true` when all choices have been made, and `false` for an
exception. -/
def search : List (Choice α) → Option α → List Bool
  | [], _ => [true]
  | choice :: more, prev =>
    (approved choice.test (choice.candidates prev)).flatMap fun outcome =>
      outcome.elim [false] fun i => search more (some i)

/-! ## The choices to be found -/

/-- A complete sequence of choices. -/
def Solves : List (Choice α) → Option α → List α → Prop
  | [], _, solution => solution = []
  | choice :: more, prev, solution => ∃ i rest, solution = i :: rest ∧ i ∈ choice.candidates prev ∧
      choice.test i = some true ∧ Solves more (some i) rest

/-- A sequence of choices which leads to an exception. -/
def Raises : List (Choice α) → Option α → List α → Prop
  | [], _, _ => False
  | choice :: more, prev, path => ∃ i rest, path = i :: rest ∧ i ∈ choice.candidates prev ∧
      (choice.test i = none ∧ rest = [] ∨ choice.test i = some true ∧ Raises more (some i) rest)

/-- The one sequence of choices is tried before the other one. -/
def TriedBefore : List (Choice α) → List α → List α → Prop
  | choice :: more, i :: solution, j :: path => choice.ahead i j ∨ i = j ∧ TriedBefore more solution path
  | _, _, _ => False

/-- **What is found first** among the solutions and exceptions. -/
def Decides (solves raises : List α → Prop) (before : List α → List α → Prop) : Option Bool → Prop
  | some true => ∃ solution, solves solution ∧ ∀ path, raises path → before solution path
  | some false => ∃ path, raises path ∧ ∀ solution, solves solution → ¬ before solution path
  | none => (∀ solution, ¬ solves solution) ∧ ∀ path, ¬ raises path

variable {choice : Choice α} {more choices : List (Choice α)} {prev : Option α} {i : α} {is : List α}
  {found : Option Bool} {solves solves' raises raises' : List α → Prop} {before : List α → List α → Prop}

theorem Decides.congr (h : Decides solves raises before found) (hsolves : ∀ sol, solves' sol ↔ solves sol)
    (hraises : ∀ path, raises' path ↔ raises path) : Decides solves' raises' before found := by
  have hs : solves' = solves := funext fun sol => propext (hsolves sol)
  have hr : raises' = raises := funext fun path => propext (hraises path)
  rw [hs, hr]
  exact h

theorem Decides.raised_iff (h : Decides solves raises before found) :
    found = some false ↔ ∃ path, raises path ∧ ∀ solution, solves solution → ¬ before solution path := by
  rcases found with _ | _ | _
  · exact ⟨nofun, fun ⟨path, hpath, _⟩ => absurd hpath (h.2 path)⟩
  · exact ⟨fun _ => h, fun _ => rfl⟩
  · obtain ⟨solution, hsolution, hfirst⟩ := h
    exact ⟨nofun, fun ⟨path, hpath, hnot⟩ => absurd (hfirst path hpath) (hnot solution hsolution)⟩

theorem Decides.solved_iff (h : Decides solves raises before found) (hfound : found ≠ some false) :
    found = some true ↔ ∃ solution, solves solution := by
  rcases found with _ | _ | _
  · exact ⟨nofun, fun ⟨solution, hsolution⟩ => absurd hsolution (h.1 solution)⟩
  · exact absurd rfl hfound
  · obtain ⟨solution, hsolution, -⟩ := h
    exact ⟨fun _ => ⟨solution, hsolution⟩, fun _ => rfl⟩

/-! ## Correctness of the search -/

/-- A solution whose first choice is among some of the candidates. -/
def SolvesIn (choice : Choice α) (more : List (Choice α)) (is : List α) (solution : List α) : Prop :=
  ∃ i rest, solution = i :: rest ∧ i ∈ is ∧ choice.test i = some true ∧ Solves more (some i) rest

/-- An exception, with the first choice among some of the candidates. -/
def RaisesIn (choice : Choice α) (more : List (Choice α)) (is : List α) (path : List α) : Prop :=
  ∃ i rest, path = i :: rest ∧ i ∈ is ∧
    (choice.test i = none ∧ rest = [] ∨ choice.test i = some true ∧ Raises more (some i) rest)

theorem solvesIn_cons {sol : List α} : SolvesIn choice more (i :: is) sol ↔
    (∃ rest, sol = i :: rest ∧ choice.test i = some true ∧ Solves more (some i) rest) ∨
      SolvesIn choice more is sol := by
  constructor
  · rintro ⟨j, rest, rfl, hmem, htest, hrest⟩
    rcases mem_cons.mp hmem with rfl | hmem
    · exact .inl ⟨rest, rfl, htest, hrest⟩
    · exact .inr ⟨j, rest, rfl, hmem, htest, hrest⟩
  · rintro (⟨rest, rfl, htest, hrest⟩ | ⟨j, rest, rfl, hmem, hrest⟩)
    · exact ⟨i, rest, rfl, mem_cons_self, htest, hrest⟩
    · exact ⟨j, rest, rfl, mem_cons_of_mem i hmem, hrest⟩

theorem raisesIn_cons {path : List α} : RaisesIn choice more (i :: is) path ↔
    (∃ rest, path = i :: rest ∧
      (choice.test i = none ∧ rest = [] ∨ choice.test i = some true ∧ Raises more (some i) rest)) ∨
      RaisesIn choice more is path := by
  constructor
  · rintro ⟨j, rest, rfl, hmem, hrest⟩
    rcases mem_cons.mp hmem with rfl | hmem
    · exact .inl ⟨rest, rfl, hrest⟩
    · exact .inr ⟨j, rest, rfl, hmem, hrest⟩
  · rintro (⟨rest, rfl, hrest⟩ | ⟨j, rest, rfl, hmem, hrest⟩)
    · exact ⟨i, rest, rfl, mem_cons_self, hrest⟩
    · exact ⟨j, rest, rfl, mem_cons_of_mem i hmem, hrest⟩

theorem decides_of_test_none (htest : choice.test i = none) (hsorted : ∀ j ∈ is, choice.ahead i j) :
    Decides (SolvesIn choice more (i :: is)) (RaisesIn choice more (i :: is)) (TriedBefore (choice :: more))
      (some false) := by
  refine ⟨[i], raisesIn_cons.mpr (.inl ⟨[], rfl, .inl ⟨htest, rfl⟩⟩), fun sol hsol hbefore => ?_⟩
  rcases solvesIn_cons.mp hsol with ⟨rest, rfl, hone, -⟩ | ⟨j, rest, rfl, hmem, -⟩
  · rw [htest] at hone
    cases hone
  · rcases hbefore with hahead | ⟨-, hrest⟩
    · exact choice.asymm hahead (hsorted j hmem)
    · cases rest with
      | nil => cases more <;> exact hrest
      | cons k rest => cases more <;> exact hrest

theorem decides_of_test_false (htest : choice.test i = some false)
    (h : Decides (SolvesIn choice more is) (RaisesIn choice more is) before found) :
    Decides (SolvesIn choice more (i :: is)) (RaisesIn choice more (i :: is)) before found := by
  refine h.congr (fun sol => ?_) fun path => ?_
  · rw [solvesIn_cons]
    refine or_iff_right fun ⟨rest, _, hone, _⟩ => ?_
    rw [htest] at hone
    cases hone
  · rw [raisesIn_cons]
    refine or_iff_right fun ⟨rest, _, hone⟩ => ?_
    rw [htest] at hone
    rcases hone with ⟨hone, -⟩ | ⟨hone, -⟩ <;> cases hone

/-- What follows a candidate approved comes first, and then the other candidates are tried. -/
theorem decides_of_test_true {rest : Option Bool} (htest : choice.test i = some true)
    (hsorted : ∀ j ∈ is, choice.ahead i j)
    (hfirst : Decides (Solves more (some i)) (Raises more (some i)) (TriedBefore more) found)
    (hrest : Decides (SolvesIn choice more is) (RaisesIn choice more is) (TriedBefore (choice :: more)) rest) :
    Decides (SolvesIn choice more (i :: is)) (RaisesIn choice more (i :: is)) (TriedBefore (choice :: more))
      (found.or rest) := by
  rcases found with _ | _ | _
  · -- nothing is to be found from there on
    refine hrest.congr (fun sol => ?_) fun path => ?_
    · rw [solvesIn_cons]
      exact or_iff_right fun ⟨sol', _, _, hsol'⟩ => hfirst.1 sol' hsol'
    · rw [raisesIn_cons]
      refine or_iff_right fun ⟨path', _, hraised⟩ => ?_
      rcases hraised with ⟨hnone, -⟩ | ⟨-, hpath'⟩
      · rw [htest] at hnone
        cases hnone
      · exact hfirst.2 path' hpath'
  · obtain ⟨path, hpath, hnot⟩ := hfirst
    refine ⟨i :: path, raisesIn_cons.mpr (.inl ⟨path, rfl, .inr ⟨htest, hpath⟩⟩), fun sol hsol hbefore => ?_⟩
    rcases solvesIn_cons.mp hsol with ⟨sol', rfl, -, hsol'⟩ | ⟨j, sol', rfl, hmem, -⟩
    · rcases hbefore with hahead | ⟨-, hbefore'⟩
      · exact choice.asymm hahead hahead
      · exact hnot sol' hsol' hbefore'
    · rcases hbefore with hahead | ⟨rfl, -⟩
      · exact choice.asymm hahead (hsorted j hmem)
      · exact choice.asymm (hsorted j hmem) (hsorted j hmem)
  · obtain ⟨sol, hsol, hbefore⟩ := hfirst
    refine ⟨i :: sol, solvesIn_cons.mpr (.inl ⟨sol, rfl, htest, hsol⟩), fun path hpath => ?_⟩
    rcases raisesIn_cons.mp hpath with ⟨path', rfl, hraised⟩ | ⟨j, path', rfl, hmem, -⟩
    · rcases hraised with ⟨hnone, -⟩ | ⟨-, hpath'⟩
      · rw [htest] at hnone
        cases hnone
      · exact .inr ⟨rfl, hbefore path' hpath'⟩
    · exact .inl (hsorted j hmem)

/-- What the search comes to first is the first of the solutions and exceptions there are. -/
theorem decides_search (choices : List (Choice α)) (prev : Option α) :
    Decides (Solves choices prev) (Raises choices prev) (TriedBefore choices) (search choices prev).head? := by
  induction choices generalizing prev with
  | nil => exact ⟨[], rfl, fun path hpath => hpath.elim⟩
  | cons choice more ih =>
    have hin : ∀ is : List α, is.Pairwise choice.ahead →
        Decides (SolvesIn choice more is) (RaisesIn choice more is) (TriedBefore (choice :: more))
          ((approved choice.test is).flatMap fun outcome =>
            outcome.elim [false] fun i => search more (some i)).head? := by
      -- the candidates are tried one after the other
      intro is hsorted
      induction is with
      | nil => exact ⟨nofun, nofun⟩
      | cons i is ihs =>
        obtain ⟨hahead, hsorted'⟩ := pairwise_cons.mp hsorted
        rw [approved]
        cases htest : choice.test i with
        | none => exact decides_of_test_none htest hahead
        | some result =>
          cases result with
          | false => exact decides_of_test_false htest (ihs hsorted')
          | true =>
            simp only [flatMap_cons, head?_append]
            exact decides_of_test_true htest hahead (ih (some i)) (ihs hsorted')
    exact hin _ (choice.sorted prev)

end Choice

end Lumiera
