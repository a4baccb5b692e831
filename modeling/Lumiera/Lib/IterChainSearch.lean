import Mathlib.Data.List.Forall2
import Mathlib.Data.List.Lex
import Lumiera.Base.Iteration
import Lumiera.Lib.IterCursor

/-! # Chained search (`lib/iter-chain-search.hpp`, `Expander` in `lib/iter-explorer.hpp`)

A chained search works on a filtered iteration. Its current state is copied to a child level for each further
step, and the step reconfigures the filter of this copy. An exhausted child is dropped, and then the level below
is advanced, until all conditions are met, or nothing is left to be tried. -/

namespace Lumiera.Lib

open List

universe u

/-- **A chained search** (`IterChainSearch`). -/
structure IterChainSearch (φ : Type u) where
  /-- The current child iterator, or the root when there are no children. -/
  current : φ
  /-- The iterators below, which have been expanded: the innermost first, and the root last. -/
  below : List φ
  /-- `stepChain_` -/
  stepChain_ : List (φ → Option φ)

namespace IterChainSearch

variable {φ : Type u} (C : FiniteCore φ)

/-! ## The search -/

/-- `depth`: the number of children. -/
def depth (s : IterChainSearch φ) : ℕ := s.below.length

/-- `needsExpansion` -/
def needsExpansion (s : IterChainSearch φ) : Bool := s.depth < s.stepChain_.length

/-- The root, at the bottom of all levels. -/
def root (s : IterChainSearch φ) : φ := s.below.getLast?.getD s.current

/-- `dropExhaustedChildren`: pops a child which is exhausted, and consumes the source of its expansion. -/
def dropExhaustedChildren : φ → List φ → Option (φ × List φ)
  | current, [] => some (current, [])
  | current, source :: below =>
    if C.checkPoint current then some (current, source :: below)
    else (C.iterNext source).bind fun source' => dropExhaustedChildren source' below

/-- The levels are put in place. -/
def withLevels (s : IterChainSearch φ) (levels : φ × List φ) : IterChainSearch φ :=
  { s with current := levels.1, below := levels.2 }

/-- The body of the backtracking loop: a copy of the current filter is embedded into the child level and
reconfigured, whereby it might become empty. -/
def turn (s : IterChainSearch φ) (h : s.depth < s.stepChain_.length) : Option (IterChainSearch φ) :=
  (s.stepChain_[s.depth] s.current).bind fun child =>
    (dropExhaustedChildren C child (s.current :: s.below)).map s.withLevels

/-! ## Termination -/

/-- The steps which may be taken from the levels below, after what is expanded there. -/
def pendingBelow (steps : List (φ → Option φ)) : List φ → ℕ
  | [] => 0
  | source :: below =>
    C.weight (steps.drop below.length) (C.outcomes source).tail + pendingBelow steps below

/-- The steps which may be taken, with all levels regarded. -/
def pending (steps : List (φ → Option φ)) (current : φ) (below : List φ) : ℕ :=
  C.weight (steps.drop below.length) (C.outcomes current) + pendingBelow C steps below

variable {C} {s s' : IterChainSearch φ} {current : φ} {below : List φ} {levels : φ × List φ}
  {steps : List (φ → Option φ)} {step : φ → Option φ}

theorem tail_outcomes {f f' : φ} (h : C.iterNext f = some f') : (C.outcomes f).tail = C.outcomes f' := by
  rw [FiniteCore.outcomes_of_valid (C.valid_of_next h), h]
  rfl

theorem pending_dropExhaustedChildren (h : dropExhaustedChildren C current below = some levels) :
    pending C steps levels.1 levels.2 ≤ pending C steps current below := by
  induction below generalizing current with
  | nil =>
    cases Option.some.inj h
    exact Nat.le_refl _
  | cons source below ih =>
    rw [dropExhaustedChildren] at h
    split at h
    · cases Option.some.inj h
      exact Nat.le_refl _
    · obtain ⟨source', hnext, hdrop⟩ := Option.bind_eq_some_iff.mp h
      refine Nat.le_trans (ih hdrop) ?_
      rw [pending, pending, pendingBelow, tail_outcomes hnext]
      exact Nat.le_add_left _ _

theorem turn_cases (h : s.depth < s.stepChain_.length) (hturn : s.turn C h = some s') :
    ∃ child levels, s.stepChain_[s.depth] s.current = some child ∧
      dropExhaustedChildren C child (s.current :: s.below) = some levels ∧ s' = s.withLevels levels := by
  obtain ⟨child, hchild, hmap⟩ := Option.bind_eq_some_iff.mp hturn
  obtain ⟨levels, hlevels, rfl⟩ := Option.map_eq_some_iff.mp hmap
  exact ⟨child, levels, hchild, hlevels, rfl⟩

theorem pending_turn (h : s.depth < s.stepChain_.length) (hvalid : C.checkPoint s.current = true)
    (hturn : s.turn C h = some s') :
    pending C s'.stepChain_ s'.current s'.below < pending C s.stepChain_ s.current s.below := by
  obtain ⟨child, levels, hchild, hlevels, rfl⟩ := turn_cases h hturn
  refine Nat.lt_of_le_of_lt (pending_dropExhaustedChildren hlevels) ?_
  show pending C s.stepChain_ child (s.current :: s.below) < _
  have hsteps : s.stepChain_.drop s.below.length =
      s.stepChain_[s.depth] :: s.stepChain_.drop (s.below.length + 1) := drop_eq_getElem_cons h
  rw [pending, pending, pendingBelow, hsteps, FiniteCore.outcomes_of_valid hvalid, tail_cons,
    FiniteCore.weight_cons_some, hchild, length_cons]
  show C.weight _ (C.outcomes child) + _ < 1 + C.weight _ (C.outcomes child) + _ + _
  omega

/-- The backtracking loop: attempts to establish all conditions, possibly trying further combinations. -/
def expandAll (C : FiniteCore φ) (s : IterChainSearch φ) : Option (IterChainSearch φ) :=
  if h : s.depth < s.stepChain_.length ∧ C.checkPoint s.current = true then
    match _hturn : s.turn C h.1 with
    | none => none
    | some s' => expandAll C s'
  else some s
termination_by pending C s.stepChain_ s.current s.below
decreasing_by exact pending_turn h.1 h.2 _hturn

variable (C) in
/-- Pull to the next element of the filter on top, and drop it when it is exhausted thereby
(`iterNext` of `Expander`). -/
def iterNextBase (s : IterChainSearch φ) : Option (IterChainSearch φ) :=
  (C.iterNext s.current).bind fun next => (dropExhaustedChildren C next s.below).map s.withLevels

variable (C) in
/-- `iterNext`: the next solution, or the first one after a step was added. -/
def iterNext (s : IterChainSearch φ) : Option (IterChainSearch φ) :=
  if C.checkPoint s.current = false then none
  else if s.needsExpansion then s.expandAll C
  else (s.iterNextBase C).bind (expandAll C)

variable (C) in
/-- `addStep`: the first step is applied to the root filter, which is disabled initially; all further steps are
appended to the chain. -/
def addStep (isDisabled : φ → Bool) (s : IterChainSearch φ) (nextStep : φ → Option φ) :
    Option (IterChainSearch φ) :=
  if C.checkPoint s.current = false then some s
  else if isDisabled s.root then
    (nextStep s.root).map fun root =>
      if s.below = [] then { s with current := root } else { s with below := s.below.dropLast ++ [root] }
  else
    { s with stepChain_ := s.stepChain_ ++ [nextStep] }.iterNext C

/-! ## Solutions -/

variable (C) in
/-- What is left to be found from the levels below. -/
def solutionsBelow (steps : List (φ → Option φ)) : List φ → List (Option φ)
  | [] => []
  | source :: below =>
    C.expand (steps.drop below.length) (C.outcomes source).tail ++ solutionsBelow steps below

variable (C) in
/-- What is left to be found from some levels. -/
def solutionsOf (steps : List (φ → Option φ)) (current : φ) (below : List φ) : List (Option φ) :=
  C.expand (steps.drop below.length) (C.outcomes current) ++ solutionsBelow C steps below

variable (C) in
/-- **The solutions** left to be found, in the order of the search, with the present one in front when all steps
have been taken. -/
def solutions (s : IterChainSearch φ) : List (Option φ) := solutionsOf C s.stepChain_ s.current s.below

/-- Dropping exhausted children drops no solution, and raises an exception only if this is what is found next. -/
theorem solutionsOf_dropExhaustedChildren (hbelow : ∀ f ∈ below, C.checkPoint f = true) :
    (dropExhaustedChildren C current below = none → (solutionsOf C steps current below).head? = some none) ∧
    (∀ levels, dropExhaustedChildren C current below = some levels →
      solutionsOf C steps levels.1 levels.2 = solutionsOf C steps current below ∧
      (levels.2 ≠ [] → C.checkPoint levels.1 = true) ∧ ∀ f ∈ levels.2, C.checkPoint f = true) := by
  -- by induction on the levels below, the innermost of which is advanced when the child is exhausted
  induction below generalizing current with
  | nil =>
    refine ⟨nofun, fun levels h => ?_⟩
    cases Option.some.inj h
    exact ⟨rfl, fun h => absurd rfl h, nofun⟩
  | cons source below ih =>
    obtain ⟨hsource, hrest⟩ := forall_mem_cons.mp hbelow
    rw [dropExhaustedChildren]
    cases hcurrent : C.checkPoint current with
    | true =>
      refine ⟨nofun, fun levels h => ?_⟩
      cases Option.some.inj h
      exact ⟨rfl, fun _ => hcurrent, hbelow⟩
    | false =>
      have hsolutions : solutionsOf C steps current (source :: below) =
          C.expand (steps.drop below.length) (C.following (C.iterNext source)) ++
            solutionsBelow C steps below := by
        rw [solutionsOf, FiniteCore.outcomes_of_exhausted hcurrent, FiniteCore.expand_nil, nil_append,
          solutionsBelow, FiniteCore.outcomes_of_valid hsource, tail_cons]
      rw [hsolutions]
      cases hnext : C.iterNext source with
      | none =>
        refine ⟨fun _ => ?_, nofun⟩
        rw [head?_append]
        show ((C.expand _ [none]).head?).or _ = _
        rw [FiniteCore.head?_expand_none, Option.some_or]
      | some source' => exact ih hrest

theorem length_dropExhaustedChildren (h : dropExhaustedChildren C current below = some levels) :
    levels.2.length ≤ below.length := by
  induction below generalizing current with
  | nil =>
    cases Option.some.inj h
    exact Nat.le_refl _
  | cons source below ih =>
    rw [dropExhaustedChildren] at h
    split at h
    · cases Option.some.inj h
      exact Nat.le_refl _
    · obtain ⟨source', -, hdrop⟩ := Option.bind_eq_some_iff.mp h
      exact Nat.le_succ_of_le (ih hdrop)

variable {isDisabled : φ → Bool}

theorem isDisabled_dropExhaustedChildren
    (hkeeps : ∀ {f f' : φ}, C.iterNext f = some f' → isDisabled f' = isDisabled f)
    (h : dropExhaustedChildren C current below = some levels) :
    isDisabled (levels.2.getLast?.getD levels.1) = isDisabled (below.getLast?.getD current) := by
  induction below generalizing current with
  | nil =>
    cases Option.some.inj h
    rfl
  | cons source below ih =>
    rw [dropExhaustedChildren] at h
    split at h
    · cases Option.some.inj h
      rfl
    · obtain ⟨source', hnext, hdrop⟩ := Option.bind_eq_some_iff.mp h
      rw [ih hdrop]
      cases below with
      | nil => exact hkeeps hnext
      | cons f below => rw [getLast?_cons_cons, getLast?_cons, Option.getD_some, Option.getD_some]

variable (C) in
/-- **The state of a chained search**: all iterators which have been expanded are valid, and so are children. -/
structure Proper (isDisabled : φ → Bool) (s : IterChainSearch φ) : Prop where
  below_valid : ∀ f ∈ s.below, C.checkPoint f = true
  current_valid : s.below ≠ [] → C.checkPoint s.current = true
  depth_le : s.depth ≤ s.stepChain_.length
  /-- The first condition has been given. -/
  enabled : isDisabled s.root = false

/-- One turn of the loop does not change what is left to be found. -/
theorem Proper.turn
    (hkeeps : ∀ {f f' : φ}, C.iterNext f = some f' → isDisabled f' = isDisabled f)
    (hs : s.Proper C isDisabled) (h : s.depth < s.stepChain_.length) (hvalid : C.checkPoint s.current = true) :
    (s.turn C h = none → (s.solutions C).head? = some none) ∧
    (∀ s', s.turn C h = some s' → s'.solutions C = s.solutions C ∧ s'.Proper C isDisabled ∧
      s'.stepChain_ = s.stepChain_) := by
  have hbelow : ∀ f ∈ s.current :: s.below, C.checkPoint f = true :=
    forall_mem_cons.mpr ⟨hvalid, hs.below_valid⟩
  have hsolutions : s.solutions C = C.expand (s.stepChain_.drop (s.below.length + 1))
      (C.following (s.stepChain_[s.depth] s.current)) ++
        solutionsBelow C s.stepChain_ (s.current :: s.below) := by
    have hsteps : s.stepChain_.drop s.below.length =
        s.stepChain_[s.depth] :: s.stepChain_.drop (s.below.length + 1) := drop_eq_getElem_cons h
    rw [solutions, solutionsOf, hsteps, FiniteCore.outcomes_of_valid hvalid, FiniteCore.expand_cons_some,
      solutionsBelow, FiniteCore.outcomes_of_valid hvalid, tail_cons, hsteps, append_assoc]
  constructor
  · intro hturn
    have hdrop := Option.bind_eq_none_iff.mp hturn
    rw [hsolutions]
    cases hchild : s.stepChain_[s.depth] s.current with
    | none =>
      rw [head?_append]
      show ((C.expand _ [none]).head?).or _ = _
      rw [FiniteCore.head?_expand_none, Option.some_or]
    | some child =>
      exact (solutionsOf_dropExhaustedChildren hbelow).1 (Option.map_eq_none_iff.mp (hdrop child hchild))
  · intro s' hturn
    obtain ⟨child, levels, hchild, hlevels, rfl⟩ := turn_cases h hturn
    obtain ⟨heq, hcurrent, hvalidBelow⟩ := (solutionsOf_dropExhaustedChildren hbelow).2 levels hlevels
    refine ⟨?_, ⟨hvalidBelow, hcurrent, ?_, ?_⟩, rfl⟩
    · rw [hsolutions, hchild]
      exact heq
    · exact Nat.le_trans (length_dropExhaustedChildren hlevels) h
    · refine (isDisabled_dropExhaustedChildren hkeeps hlevels).trans ?_
      rw [← hs.enabled, root, getLast?_cons, Option.getD_some]

/-- **The backtracking loop** arrives at the first solution, and raises an exception just when this is what is
found first. -/
theorem Proper.expandAll
    (hkeeps : ∀ {f f' : φ}, C.iterNext f = some f' → isDisabled f' = isDisabled f)
    (hs : s.Proper C isDisabled) :
    (s.expandAll C = none → (s.solutions C).head? = some none) ∧
    (∀ s', s.expandAll C = some s' → s'.solutions C = s.solutions C ∧ s'.Proper C isDisabled ∧
      s'.stepChain_ = s.stepChain_ ∧ (C.checkPoint s'.current = true → s'.depth = s'.stepChain_.length)) := by
  induction s using expandAll.induct (C := C) with
  | case1 s h hturn =>
    rw [IterChainSearch.expandAll, dif_pos h]
    have hnone := (hs.turn hkeeps h.1 h.2).1 hturn
    split
    · exact ⟨fun _ => hnone, nofun⟩
    · next next hnext =>
        rw [hturn] at hnext
        cases hnext
  | case2 s h next hturn ih =>
    obtain ⟨hsolutions, hproper, hchain⟩ := (hs.turn hkeeps h.1 h.2).2 next hturn
    have hrest := ih hproper
    rw [hsolutions, hchain] at hrest
    rw [IterChainSearch.expandAll, dif_pos h]
    split
    · next hnone =>
        rw [hturn] at hnone
        cases hnone
    · next next' hnext =>
        rw [hturn] at hnext
        cases Option.some.inj hnext
        exact hrest
  | case3 s h =>
    rw [IterChainSearch.expandAll, dif_neg h]
    refine ⟨nofun, fun s' heq => ?_⟩
    cases Option.some.inj heq
    refine ⟨rfl, hs, rfl, fun hvalid => ?_⟩
    exact Nat.le_antisymm hs.depth_le (Nat.le_of_not_lt fun hlt => h ⟨hlt, hvalid⟩)

variable (C) in
/-- **The state between the steps**: a solution was found for all of them, or nothing is left. -/
structure Settled (isDisabled : φ → Bool) (s : IterChainSearch φ) : Prop extends s.Proper C isDisabled where
  complete : C.checkPoint s.current = true → s.depth = s.stepChain_.length

theorem Settled.head?_solutions (hs : s.Settled C isDisabled) :
    (s.solutions C).head? = if C.checkPoint s.current then some (some s.current) else none := by
  rw [solutions, solutionsOf]
  split
  · next hvalid =>
      have hdone : s.stepChain_.drop s.below.length = [] :=
        drop_eq_nil_of_le (Nat.le_of_eq (hs.complete hvalid).symm)
      rw [hdone, FiniteCore.outcomes_of_valid hvalid]
      rfl
  · next hexhausted =>
      have hnone : s.below = [] := by
        by_contra hne
        exact hexhausted (hs.current_valid hne)
      rw [FiniteCore.outcomes_of_exhausted (Bool.not_eq_true _ ▸ hexhausted), FiniteCore.expand_nil, hnone]
      rfl

theorem solutionsOf_concat (hcurrent : below.length ≤ steps.length) :
    solutionsOf C (steps ++ [step]) current below =
      (solutionsOf C steps current below).flatMap (C.expandBy step) := by
  have hbelow : ∀ levels : List φ, levels.length ≤ steps.length →
      solutionsBelow C (steps ++ [step]) levels = (solutionsBelow C steps levels).flatMap (C.expandBy step) := by
    intro levels hlevels
    induction levels with
    | nil => rfl
    | cons source levels ih =>
      have hlength : levels.length ≤ steps.length := Nat.le_of_succ_le hlevels
      rw [solutionsBelow, solutionsBelow, drop_append_of_le_length hlength, FiniteCore.expand_concat,
        ih hlength, flatMap_append]
  rw [solutionsOf, solutionsOf, drop_append_of_le_length hcurrent, FiniteCore.expand_concat,
    hbelow below hcurrent, flatMap_append]

section Keeps

variable (hkeeps : ∀ {f f' : φ}, C.iterNext f = some f' → isDisabled f' = isDisabled f)

include hkeeps

/-- A further step works on all solutions left, even if nothing has been found. -/
theorem Settled.addStep
    (hs : s.Settled C isDisabled) (nextStep : φ → Option φ) :
    (s.addStep C isDisabled nextStep = none →
      ((s.solutions C).flatMap (C.expandBy nextStep)).head? = some none) ∧
    (∀ s', s.addStep C isDisabled nextStep = some s' →
      s'.solutions C = (s.solutions C).flatMap (C.expandBy nextStep) ∧ s'.Settled C isDisabled) := by
  rw [IterChainSearch.addStep]
  by_cases hempty : C.checkPoint s.current = false
  · rw [if_pos hempty]
    refine ⟨nofun, fun s' heq => ?_⟩
    cases Option.some.inj heq
    have hnone : s.solutions C = [] := by
      rw [← head?_eq_none_iff, hs.head?_solutions, hempty]
      rfl
    rw [hnone]
    exact ⟨rfl, hs⟩
  · rw [if_neg hempty, hs.enabled]
    have happended :
        ({ s with stepChain_ := s.stepChain_ ++ [nextStep] } : IterChainSearch φ).Proper C isDisabled :=
      ⟨hs.below_valid, hs.current_valid, by
        rw [length_append]
        exact Nat.le_add_right_of_le hs.depth_le, hs.enabled⟩
    have hneeds :
        ({ s with stepChain_ := s.stepChain_ ++ [nextStep] } : IterChainSearch φ).needsExpansion = true := by
      rw [needsExpansion, decide_eq_true_iff, length_append]
      exact Nat.lt_succ_of_le hs.depth_le
    have hsolutions : ({ s with stepChain_ := s.stepChain_ ++ [nextStep] } : IterChainSearch φ).solutions C =
        (s.solutions C).flatMap (C.expandBy nextStep) := solutionsOf_concat hs.depth_le
    rw [iterNext, if_neg hempty, if_pos hneeds, ← hsolutions]
    refine ⟨(happended.expandAll hkeeps).1, fun s' heq => ?_⟩
    obtain ⟨hsame, hproper, -, hcomplete⟩ := (happended.expandAll hkeeps).2 s' heq
    exact ⟨hsame, { hproper with complete := hcomplete }⟩

theorem Settled.pulled
    (hs : s.Settled C isDisabled) {next : φ} (hnext : C.iterNext s.current = some next)
    (hlevels : dropExhaustedChildren C next s.below = some levels) :
    (s.withLevels levels).solutions C = solutionsOf C s.stepChain_ next s.below ∧
      (s.withLevels levels).Proper C isDisabled := by
  obtain ⟨hsame, hcurrent, hbelow⟩ := (solutionsOf_dropExhaustedChildren hs.below_valid).2 levels hlevels
  refine ⟨hsame, hbelow, hcurrent, ?_, ?_⟩
  · exact (length_dropExhaustedChildren hlevels).trans hs.depth_le
  · have henabled := hs.enabled
    refine (isDisabled_dropExhaustedChildren hkeeps hlevels).trans (Eq.trans ?_ henabled)
    rw [root]
    cases s.below.getLast? with
    | none => exact hkeeps hnext
    | some f => rfl

/-- One step of the iteration consumes the solution in front. -/
theorem Settled.iterNext
    (hs : s.Settled C isDisabled) (hvalid : C.checkPoint s.current = true) :
    (s.iterNext C = none → (s.solutions C).tail.head? = some none) ∧
    (∀ s', s.iterNext C = some s' → s'.solutions C = (s.solutions C).tail ∧ s'.Settled C isDisabled) := by
  have hdone : s.stepChain_.drop s.below.length = [] :=
    drop_eq_nil_of_le (Nat.le_of_eq (hs.complete hvalid).symm)
  have hneeds : ¬ s.needsExpansion = true := by
    rw [needsExpansion, decide_eq_true_iff, hs.complete hvalid]
    exact Nat.lt_irrefl _
  have htail : (s.solutions C).tail = C.following (C.iterNext s.current) ++ solutionsBelow C s.stepChain_ s.below := by
    rw [solutions, solutionsOf, hdone, FiniteCore.outcomes_of_valid hvalid]
    rfl
  rw [IterChainSearch.iterNext, if_neg (Bool.not_eq_false _ ▸ hvalid), if_neg hneeds, iterNextBase, htail]
  cases hnext : C.iterNext s.current with
  | none => exact ⟨fun _ => rfl, fun s' hs' => by cases hs'⟩
  | some next =>
    have hrest : C.following (some next) ++ solutionsBelow C s.stepChain_ s.below =
        solutionsOf C s.stepChain_ next s.below := by
      rw [solutionsOf, hdone]
      rfl
    rw [hrest, Option.bind_some]
    cases hlevels : dropExhaustedChildren C next s.below with
    | none => exact ⟨fun _ => (solutionsOf_dropExhaustedChildren hs.below_valid).1 hlevels,
        fun s' hs' => by cases hs'⟩
    | some levels =>
      obtain ⟨hsame, hproper⟩ := hs.pulled hkeeps hnext hlevels
      obtain ⟨hraises, hreturns⟩ := hproper.expandAll hkeeps
      rw [← hsame]
      refine ⟨hraises, fun s' hs' => ?_⟩
      obtain ⟨hsolutions, hproper', -, hcomplete⟩ := hreturns s' hs'
      exact ⟨hsolutions, { hproper' with complete := hcomplete }⟩

end Keeps

end IterChainSearch

/-! ## Chained search in a sequence -/

section ChainSearch

variable {α : Type u} {seq : List α}

/-- The step which installs a predicate in the filter. -/
def searchStep (filterPredicate : α → Bool) (filter : MutableFilter seq) : Option (MutableFilter seq) :=
  filter.setNewFilter fun x => some (filterPredicate x)

/-- `iter::chainSearch`: the pristine state passes the sequence through. -/
def chainSearch (seq : List α) : IterChainSearch (MutableFilter seq) :=
  ⟨⟨⟨0, false, Nat.zero_le _⟩, none⟩, [], []⟩

/-- `search` -/
def IterChainSearch.search (s : IterChainSearch (MutableFilter seq)) (filterPredicate : α → Bool) :
    Option (IterChainSearch (MutableFilter seq)) :=
  s.addStep (MutableFilter.core seq) MutableFilter.isDisabled (searchStep filterPredicate)

/-- The iteration of a chained search. -/
def chainCore (seq : List α) : StateCore (IterChainSearch (MutableFilter seq)) α where
  checkPoint s := s.current.checkPoint
  yield s := if h : s.current.cursor.checkPoint = true then some (s.current.cursor.yield seq h) else none
  iterNext s := s.iterNext (MutableFilter.core seq)

/-- The indices of the elements from some place on, which are approved. -/
def hits (seq : List α) (p : α → Bool) (i : ℕ) : List ℕ :=
  (List.range' i (seq.length - i)).filter fun j => seq[j]?.any p

/-- **The index tuples** of a chained search: each index follows the one before, or stays there. -/
def tuples (seq : List α) : List (α → Bool) → ℕ → List (List ℕ)
  | [], _ => [[]]
  | p :: ps, i => (hits seq p i).flatMap fun j => (tuples seq ps j).map (j :: ·)

theorem mem_hits {p : α → Bool} {i j : ℕ} : j ∈ hits seq p i ↔ i ≤ j ∧ ∃ x, seq[j]? = some x ∧ p x = true := by
  rw [hits, mem_filter, mem_range'_1, Option.any_eq_true]
  constructor
  · rintro ⟨⟨hi, -⟩, hx⟩
    exact ⟨hi, hx⟩
  · rintro ⟨hi, x, hx, hp⟩
    have hlt := (List.getElem?_eq_some_iff.mp hx).1
    exact ⟨⟨hi, by omega⟩, x, hx, hp⟩

theorem mem_tuples {ps : List (α → Bool)} {i : ℕ} {t : List ℕ} : t ∈ tuples seq ps i ↔
    List.Forall₂ (fun p j => ∃ x, seq[j]? = some x ∧ p x = true) ps t ∧ (i :: t).IsChain (· ≤ ·) := by
  induction ps generalizing i t with
  | nil =>
    rw [tuples, mem_singleton, List.forall₂_nil_left_iff]
    exact ⟨fun h => ⟨h, h ▸ .singleton i⟩, fun h => h.1⟩
  | cons p ps ih =>
    rw [tuples, mem_flatMap]
    constructor
    · rintro ⟨j, hj, hmap⟩
      obtain ⟨t, ht, rfl⟩ := mem_map.mp hmap
      obtain ⟨hle, hp⟩ := mem_hits.mp hj
      obtain ⟨hall, hchain⟩ := ih.mp ht
      exact ⟨.cons hp hall, .cons_cons hle hchain⟩
    · rintro ⟨hall, hchain⟩
      cases hall with
      | @cons _ j _ t hp hall =>
        rw [isChain_cons_cons] at hchain
        exact ⟨j, mem_hits.mpr ⟨hchain.1, hp⟩, mem_map.mpr ⟨t, ih.mpr ⟨hall, hchain.2⟩, rfl⟩⟩

theorem pairwise_tuples (ps : List (α → Bool)) (i : ℕ) : (tuples seq ps i).Pairwise (· < ·) := by
  induction ps generalizing i with
  | nil => exact pairwise_singleton _ _
  | cons p ps ih =>
    rw [tuples, pairwise_flatMap]
    constructor
    · intro j _
      exact (ih j).map _ fun t t' h => cons_lt_cons_self.mpr h
    · have hsorted : (hits seq p i).Pairwise (· < ·) := (pairwise_lt_range' 1).filter _
      refine hsorted.imp fun hlt t ht t' ht' => ?_
      obtain ⟨t, -, rfl⟩ := mem_map.mp ht
      obtain ⟨t', -, rfl⟩ := mem_map.mp ht'
      exact List.Lex.rel hlt

theorem tuples_concat (ps : List (α → Bool)) (p : α → Bool) (i : ℕ) : tuples seq (ps ++ [p]) i =
    (tuples seq ps i).flatMap fun t => (hits seq p (t.getLastD i)).map (t ++ [·]) := by
  induction ps generalizing i with
  | nil =>
    rw [tuples, flatMap_singleton]
    exact flatMap_pure_eq_map _ _
  | cons q ps ih =>
    rw [cons_append, tuples, tuples, flatMap_assoc]
    refine flatMap_congr fun j _ => ?_
    rw [ih, map_flatMap, flatMap_map]
    refine flatMap_congr fun t _ => ?_
    rw [map_map, getLastD_cons]
    rfl

/-! ### The solutions -/

/-- The index a cursor stands at, going forwards. -/
def placeOf (c : CursorGear seq.length) : Option ℕ := if c.backwards_ then none else some c.pos_

theorem hits_cons {p : α → Bool} {i : ℕ} (h : i < seq.length) :
    hits seq p i = if p seq[i] = true then i :: hits seq p (i + 1) else hits seq p (i + 1) := by
  have hlength : seq.length - i = seq.length - (i + 1) + 1 := by omega
  rw [hits, hlength, range'_succ, filter_cons, getElem?_eq_getElem h]
  rfl

theorem scan_forwards (p : α → Bool) (c : CursorGear seq.length) (h : c.backwards_ = false) :
    (MutableFilter.scan (fun x => some (p x)) c).map (·.bind placeOf) = (hits seq p c.pos_).map some := by
  induction c using MutableFilter.scan.induct (fun x => some (p x)) with
  | case1 c hvalid hraises => cases hraises
  | case2 c hvalid happroved ih =>
    obtain ⟨pos, back, hrange⟩ := c
    obtain rfl : back = false := h
    have hlt : pos < seq.length := CursorGear.index_lt hvalid
    have hp : p seq[pos] = true := Option.some.inj happroved
    rw [MutableFilter.scan_valid hvalid, happroved]
    rw [hits_cons hlt, if_pos hp]
    exact congrArg (some pos :: ·) (ih rfl)
  | case3 c hvalid hrejected ih =>
    obtain ⟨pos, back, hrange⟩ := c
    obtain rfl : back = false := h
    have hlt : pos < seq.length := CursorGear.index_lt hvalid
    have hp : p seq[pos] = false := Option.some.inj hrejected
    rw [MutableFilter.scan_valid hvalid, hrejected]
    rw [hits_cons hlt, if_neg (Bool.eq_false_iff.mp hp)]
    exact ih rfl
  | case4 c hexhausted =>
    rw [MutableFilter.scan_exhausted (Bool.not_eq_true _ ▸ hexhausted)]
    rw [CursorGear.checkPoint, h, if_neg Bool.false_ne_true, decide_eq_true_iff, not_not] at hexhausted
    rw [hits, hexhausted, Nat.sub_self]
    rfl

/-- The indices of the solutions, where an exception has none. -/
def places (os : List (Option (MutableFilter seq))) : List (Option ℕ) := os.map (·.bind fun f => placeOf f.cursor)

theorem places_following (p : α → Bool) (f : MutableFilter seq) (h : f.cursor.backwards_ = false) :
    places ((MutableFilter.core seq).following (searchStep p f)) = (hits seq p f.cursor.pos_).map some := by
  have hstep : searchStep p f = MutableFilter.pullFilter ⟨f.cursor, some fun x => some (p x)⟩ := rfl
  rw [← scan_forwards p f.cursor h, hstep, MutableFilter.following_pullFilter, MutableFilter.filtersAt, places, map_map]
  refine map_congr_left fun o _ => ?_
  cases o <;> rfl

/-- The solutions are at the indices found last. -/
def Shows (os : List (Option (MutableFilter seq))) (found : List (List ℕ)) : Prop :=
  places os = found.map fun t => some (t.getLastD 0)

variable {os : List (Option (MutableFilter seq))}

theorem Shows.head?_ne {found : List (List ℕ)} (h : Shows os found) : os.head? ≠ some none := by
  intro hnone
  obtain ⟨os, rfl⟩ := head?_eq_some_iff.mp hnone
  cases found with
  | nil => cases h
  | cons t found => cases (List.cons.inj h).1

/-- A further predicate finds its elements from each solution on. -/
theorem Shows.search {found : List (List ℕ)} (h : Shows os found)
    (p : α → Bool) : Shows (os.flatMap ((MutableFilter.core seq).expandBy (searchStep p)))
      (found.flatMap fun t => (hits seq p (t.getLastD 0)).map (t ++ [·])) := by
  induction os generalizing found with
  | nil =>
    obtain rfl : found = [] := map_eq_nil_iff.mp h.symm
    rfl
  | cons o os ih =>
    cases found with
    | nil => cases h
    | cons t found =>
      obtain ⟨hfirst, hrest⟩ := List.cons.inj h
      have hstep : places ((MutableFilter.core seq).expandBy (searchStep p) o) =
          (hits seq p (t.getLastD 0)).map some := by
        obtain ⟨f, rfl, hplace⟩ := Option.bind_eq_some_iff.mp hfirst
        rw [placeOf] at hplace
        split at hplace
        · cases hplace
        · next hforwards =>
          rw [← Option.some.inj hplace]
          exact places_following p f (Bool.not_eq_true _ ▸ hforwards)
      have hothers := ih hrest
      rw [Shows, places] at hothers ⊢
      rw [flatMap_cons, flatMap_cons, map_append, map_append, hothers, map_map]
      refine congrArg (· ++ _) (hstep.trans (map_congr_left fun j _ => ?_))
      simp

namespace IterChainSearch

variable {s s' : IterChainSearch (MutableFilter seq)} {found : List (List ℕ)} {ps : List (α → Bool)} {p : α → Bool}

/-- All solutions are delivered, one by one. -/
theorem Settled.delivers (hs : s.Settled (MutableFilter.core seq) MutableFilter.isDisabled)
    (hshows : Shows (s.solutions (MutableFilter.core seq)) found) (hne : ∀ t ∈ found, t ≠ []) :
    (chainCore seq).Delivers s (found.filterMap fun t => t.getLast?.bind (seq[·]?)) := by
  induction found generalizing s with
  | nil =>
    have hhead := hs.head?_solutions
    rw [map_eq_nil_iff.mp hshows] at hhead
    split at hhead
    · cases hhead
    · next hexhausted => exact .exhausted (Bool.not_eq_true _ ▸ hexhausted)
  | cons t found ih =>
    rw [forall_mem_cons] at hne
    have hhead := hs.head?_solutions
    cases hsolutions : s.solutions (MutableFilter.core seq) with
    | nil =>
      rw [hsolutions] at hshows
      cases hshows
    | cons o os =>
      rw [hsolutions] at hshows hhead
      obtain ⟨hfirst, hrest⟩ := List.cons.inj hshows
      split at hhead
      · next hvalid =>
        cases hhead
        -- the present element is at the last index of the tuple
        have hplace : placeOf s.current.cursor = some (t.getLastD 0) := hfirst
        have hlast : t.getLast? = some (t.getLastD 0) := by
          rw [getLastD_eq_getLast?, getLast?_eq_some_getLast hne.1]
          rfl
        have hyield : (chainCore seq).yield s = seq[t.getLastD 0]? ∧ t.getLastD 0 < seq.length := by
          rw [placeOf] at hplace
          split at hplace
          · cases hplace
          · next hforwards =>
            have hlt := CursorGear.index_lt hvalid
            rw [CursorGear.index, if_neg hforwards] at hlt
            rw [← Option.some.inj hplace, getElem?_eq_getElem hlt]
            refine ⟨(dif_pos hvalid).trans (congrArg some ?_), hlt⟩
            simp only [CursorGear.yield, CursorGear.index, if_neg hforwards]
        obtain ⟨hraises, hreturns⟩ := hs.iterNext MutableFilter.isDisabled_iterNext hvalid
        rw [hsolutions] at hraises hreturns
        rw [filterMap_cons, hlast, Option.bind_some, getElem?_eq_getElem hyield.2]
        rw [getElem?_eq_getElem hyield.2] at hyield
        cases hnext : s.iterNext (MutableFilter.core seq) with
        | none => exact absurd (hraises hnext) (Shows.head?_ne hrest)
        | some s' =>
          obtain ⟨hsame, hs'⟩ := hreturns s' hnext
          exact .next hvalid hyield.1 hnext (ih hs' (hsame ▸ hrest) hne.2)
      · cases hhead

/-- The state of a search for some predicates. -/
structure Searching (ps : List (α → Bool)) (s : IterChainSearch (MutableFilter seq)) : Prop where
  settled : s.Settled (MutableFilter.core seq) MutableFilter.isDisabled
  shows : Shows (s.solutions (MutableFilter.core seq)) (tuples seq ps 0)

theorem Searching.search (h : s.Searching ps) (p : α → Bool) :
    ∃ s', s.search p = some s' ∧ s'.Searching (ps ++ [p]) := by
  obtain ⟨hraises, hreturns⟩ := h.settled.addStep MutableFilter.isDisabled_iterNext (searchStep p)
  have hshows := h.shows.search p
  rw [← tuples_concat] at hshows
  cases hstep : s.search p with
  | none => exact absurd (hraises hstep) hshows.head?_ne
  | some s' =>
    obtain ⟨hsolutions, hsettled⟩ := hreturns s' hstep
    exact ⟨s', rfl, hsettled, hsolutions ▸ hshows⟩

theorem Searching.searchAll (h : s.Searching ps) (qs : List (α → Bool)) :
    ∃ s', qs.foldlM IterChainSearch.search s = some s' ∧ s'.Searching (ps ++ qs) := by
  induction qs generalizing s ps with
  | nil => exact ⟨s, rfl, (append_nil ps).symm ▸ h⟩
  | cons q qs ih =>
    obtain ⟨s₁, hs₁, h₁⟩ := h.search q
    obtain ⟨s', hs', h'⟩ := ih h₁
    rw [append_assoc] at h'
    refine ⟨s', ?_, h'⟩
    rw [foldlM_cons, hs₁]
    exact hs'

theorem searching_first (hseq : seq ≠ []) (p : α → Bool) :
    ∃ s, (chainSearch seq).search p = some s ∧ s.Searching [p] := by
  have hlength : 0 ≠ seq.length := (length_pos_iff.mpr hseq).ne
  have hvalid : ¬ (MutableFilter.core seq).checkPoint (chainSearch seq).current = false :=
    Bool.not_eq_false _ ▸ decide_eq_true hlength
  have hplaces := places_following p (chainSearch seq).current rfl
  rw [IterChainSearch.search, addStep, if_neg hvalid]
  change ∃ s, Option.map _ (searchStep p (chainSearch seq).current) = some s ∧ _
  cases hroot : searchStep p (chainSearch seq).current with
  | none =>
    rw [hroot] at hplaces
    cases hhits : hits seq p (chainSearch seq).current.cursor.pos_ with
    | nil => rw [hhits] at hplaces; cases hplaces
    | cons j js => rw [hhits] at hplaces; cases hplaces
  | some root =>
    rw [hroot] at hplaces
    refine ⟨⟨root, [], []⟩, rfl, ⟨⟨nofun, fun h => absurd rfl h, le_rfl, ?_⟩, fun _ => rfl⟩, ?_⟩
    · obtain ⟨c, -, rfl⟩ := Option.map_eq_some_iff.mp hroot
      rfl
    · change places (_ ++ []) = List.map _ (List.flatMap _ _)
      rw [append_nil]
      refine hplaces.trans ?_
      rw [map_flatMap]
      exact (flatMap_pure_eq_map _ _).symm

theorem search_nil (ps : List (α → Bool)) : ps.foldlM IterChainSearch.search (chainSearch ([] : List α)) =
    some (chainSearch []) := by
  induction ps with
  | nil => rfl
  | cons p ps ih =>
    exact ih

end IterChainSearch

/-- **Chained search with backtracking** yields the elements for all the tuples of indices which ascend and are
approved one by one, in lexicographic order; and then it is exhausted. -/
theorem chainSearch_delivers (seq : List α) (p : α → Bool) (ps : List (α → Bool)) : ∃ s, ∃ found : List (List ℕ),
    (p :: ps).foldlM IterChainSearch.search (chainSearch seq) = some s ∧
    (∀ t, t ∈ found ↔ List.Forall₂ (fun p j => ∃ x, seq[j]? = some x ∧ p x = true) (p :: ps) t ∧ t.IsChain (· ≤ ·)) ∧
    found.Pairwise (· < ·) ∧ (chainCore seq).Delivers s (found.filterMap fun t => t.getLast?.bind (seq[·]?)) := by
  have hmem : ∀ t, t ∈ tuples seq (p :: ps) 0 ↔
      List.Forall₂ (fun p j => ∃ x, seq[j]? = some x ∧ p x = true) (p :: ps) t ∧ t.IsChain (· ≤ ·) := by
    intro t
    rw [mem_tuples]
    refine and_congr_right fun hall => ?_
    cases hall with
    | @cons _ j _ t => rw [isChain_cons_cons, and_iff_right (Nat.zero_le j)]
  have hne : ∀ t ∈ tuples seq (p :: ps) 0, t ≠ [] := by
    rintro t ht rfl
    cases ((hmem []).mp ht).1
  by_cases hseq : seq = []
  · subst hseq
    exact ⟨_, _, IterChainSearch.search_nil (p :: ps), hmem, pairwise_tuples _ _, .exhausted rfl⟩
  · obtain ⟨s₁, hs₁, h₁⟩ := IterChainSearch.searching_first hseq p
    obtain ⟨s, hs, h⟩ := h₁.searchAll ps
    refine ⟨s, _, ?_, hmem, pairwise_tuples _ _, h.settled.delivers h.shows hne⟩
    rw [foldlM_cons, hs₁]
    exact hs

end ChainSearch

end Lumiera.Lib
