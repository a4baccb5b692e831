import Mathlib.Data.List.TakeWhile
import Lumiera.Base.Iteration
import Lumiera.Base.Preorder
import Lumiera.Steam.MObject.Session.PlacementIndexClear

/-! # Scope queries (`placement-index-query-resolver.cpp`)

A scope query is resolved by exploring the index from a start point. The explorer yields one element
after the other, and the result set picks those accepted by the content filter. Elements are accessed by
reference; two references are to the same element when the IDs are equal. An iterator into the contents
of a scope is the list of the members still ahead. Where an ID is not registered, an exception is raised,
and there is no result here. -/

namespace Lumiera.Steam.MObject.Session

open List

universe u v

open Relation (ReflTransGen TransGen)
open Forest (Preorder IsChild)

variable {PID : Type u} {Obj : Type v} [DecidableEq PID]

namespace PlacementIndex

variable (t : Table PID Obj)

/-- Access the element with this ID. -/
def find (id : PID) : Option (PlacementMO PID Obj) := (t.placementTab_.lookup id).map (·.element)

/-- The scope of the element with this ID. -/
def getScope (id : PID) : Option (PlacementMO PID Obj) := (t.placementTab_.lookup id).map (·.scope)

/-- All the elements attached to the given scope. -/
def getReferrers (id : PID) : Option (List PID) := if t.contains id then some (t.children id) else none

end PlacementIndex

/-! ## Strategies to explore the structure -/

/-- The strategies `ChildExplorer`, `DeepExplorer` and `UpExplorer`, with their current position. -/
inductive Explorer (PID : Type u) (Obj : Type v)
  | childExplorer (tip_ : List PID)
  /-- The stack of scopes, starting at the top. -/
  | deepExplorer (scopes_ : List (List PID))
  | upExplorer (tip_ : Option (PlacementMO PID Obj))

namespace Explorer

/-- Whether there is no further element; the `DeepExplorer` drops exhausted scopes on the way. -/
def exhausted : Explorer PID Obj → Bool × Explorer PID Obj
  | childExplorer tip_ => (tip_.isEmpty, childExplorer tip_)
  | deepExplorer scopes_ =>
    let scopes_ := scopes_.dropWhile List.isEmpty
    (scopes_.isEmpty, deepExplorer scopes_)
  | upExplorer tip_ => (tip_.isNone, upExplorer tip_)

/-- Yield the current element and move on. -/
def step (t : Table PID Obj) : Explorer PID Obj → Option (PlacementMO PID Obj × Explorer PID Obj)
  | childExplorer [] => none
  | childExplorer (id :: tip_) => (PlacementIndex.find t id).map fun pos => (pos, childExplorer tip_)
  | deepExplorer ((id :: tip_) :: scopes_) =>
    (PlacementIndex.find t id).bind fun pos =>
      -- delve into the scope defined by this element
      (PlacementIndex.getReferrers t pos.getID).map fun inner =>
        (pos, deepExplorer (inner :: tip_ :: scopes_))
  | deepExplorer _ => none
  | upExplorer none => none
  | upExplorer (some pos) =>
    (PlacementIndex.getScope t pos.getID).map fun scope =>
      (pos, upExplorer (if scope.getID = pos.getID then none else some scope))

end Explorer

/-- **Explore until the next acceptable element**: this one is the cursor then, or none at the end. -/
def exploreNext (t : Table PID Obj) (acceptable : PlacementMO PID Obj → Bool) :
    Nat → Explorer PID Obj → Option (Option (PlacementMO PID Obj) × Explorer PID Obj)
  | 0, _ => none
  | fuel + 1, explore =>
    match explore.exhausted with
    | (true, explore) => some (none, explore)
    | (false, explore) =>
      match explore.step t with
      | none => none
      | some (elm, explore) =>
        if acceptable elm then some (some elm, explore) else exploreNext t acceptable fuel explore

/-- The iteration over the results: the cursor is valid while it points at an element, and `nextResult`
explores further. -/
def resultSet (t : Table PID Obj) (acceptable : PlacementMO PID Obj → Bool) (fuel : Nat) :
    StateCore (Option (PlacementMO PID Obj) × Explorer PID Obj) (PlacementMO PID Obj) where
  checkPoint state := state.1.isSome
  yield state := state.1
  iterNext state := exploreNext t acceptable fuel state.2

/-! ## What is to be discovered -/

/-- **The path to root**: the element itself, followed by its enclosing scopes up to and including root. -/
inductive PathToRoot (t : Table PID Obj) : PID → List PID → Prop
  | root : PathToRoot t t.root_.getID [t.root_.getID]
  | inner {id scope : PID} {path : List PID} : id ≠ t.root_.getID → t.ScopeLink id scope →
    PathToRoot t scope path → PathToRoot t id (id :: path)

section Exploring

variable {t : Table PID Obj} {explore : Explorer PID Obj} {elms : List (PlacementMO PID Obj)}

/-- **An explorer yields these elements** and is exhausted thereafter. -/
inductive Explores (t : Table PID Obj) : Explorer PID Obj → List (PlacementMO PID Obj) → Prop
  | done {explore explore' : Explorer PID Obj} : explore.exhausted = (true, explore') → Explores t explore []
  | more {explore explore₁ explore₂ : Explorer PID Obj} {elm : PlacementMO PID Obj}
    {elms : List (PlacementMO PID Obj)} : explore.exhausted = (false, explore₁) →
    explore₁.step t = some (elm, explore₂) → Explores t explore₂ elms → Explores t explore (elm :: elms)

/-- Elements which are not acceptable are skipped: the cursor is at the first one accepted, and the
others remain. -/
theorem Explores.exploreNext (h : Explores t explore elms)
    (acceptable : PlacementMO PID Obj → Bool) {fuel : Nat} (hfuel : elms.length < fuel) :
    (elms.filter acceptable = [] ∧ ∃ explore', exploreNext t acceptable fuel explore = some (none, explore')) ∨
    ∃ elm rest explore', elms.filter acceptable = elm :: rest.filter acceptable ∧
      rest.length < elms.length ∧ Explores t explore' rest ∧
      exploreNext t acceptable fuel explore = some (some elm, explore') := by
  induction h generalizing fuel with
  | @done explore explore' hend =>
    obtain ⟨fuel, rfl⟩ := Nat.exists_eq_succ_of_ne_zero (Nat.ne_of_gt hfuel)
    refine .inl ⟨rfl, explore', ?_⟩
    rw [Session.exploreNext, hend]
  | @more explore explore₁ explore₂ elm elms hgo hstep hrest ih =>
    obtain ⟨fuel, rfl⟩ := Nat.exists_eq_succ_of_ne_zero (Nat.ne_of_gt (Nat.lt_of_le_of_lt (Nat.zero_le _) hfuel))
    rw [Session.exploreNext, hgo]
    simp only [hstep]
    cases hacc : acceptable elm with
    | true =>
      refine .inr ⟨elm, elms, explore₂, filter_cons_of_pos hacc, Nat.lt_succ_self _, hrest, ?_⟩
      rfl
    | false =>
      rw [filter_cons_of_neg (by simp [hacc])]
      rcases ih (Nat.lt_of_succ_lt_succ hfuel) with hnone | ⟨found, rest, explore', hfilter, hlt, hres⟩
      · exact .inl hnone
      · exact .inr ⟨found, rest, explore', hfilter, Nat.lt_succ_of_lt hlt, hres⟩

/-- The results are the elements accepted, in unchanged order. -/
theorem Explores.delivers (h : Explores t explore elms) (acceptable : PlacementMO PID Obj → Bool) {fuel : Nat}
    (hfuel : elms.length < fuel) : ∃ state, Session.exploreNext t acceptable fuel explore = some state ∧
    (resultSet t acceptable fuel).Delivers state (elms.filter acceptable) := by
  -- the induction is on the number of elements still to be explored
  induction hn : elms.length using Nat.strong_induction_on generalizing elms explore with
  | _ n ih =>
    rcases h.exploreNext acceptable hfuel with ⟨hnil, explore', hres⟩ |
      ⟨elm, rest, explore', hfilter, hlt, hrest, hres⟩
    · refine ⟨_, hres, ?_⟩
      rw [hnil]
      exact .exhausted rfl
    · obtain ⟨state, hnext, hdelivers⟩ := ih rest.length (hn ▸ hlt) hrest (Nat.lt_trans hlt hfuel) rfl
      refine ⟨_, hres, ?_⟩
      rw [hfilter]
      exact .next rfl rfl hnext hdelivers

end Exploring

/-! ## Each of the explorers -/

section Strategies

open Table

variable {t : Table PID Obj} {id start : PID} {ids path : List PID} {elm : PlacementMO PID Obj}
  {elms : List (PlacementMO PID Obj)}

theorem isChild_children : IsChild t.children = t.Lists := by
  funext scope id
  exact propext mem_children

/-- The scopes are a tree. -/
theorem Table.ConsistentBut.isTree (h : ConsistentBut [] t) : Forest.IsTree t.children where
  parent p q c hp hq := by
    rw [isChild_children] at hp hq
    exact ((h.registered p c).mp hp).2.2.unique ((h.registered q c).mp hq).2.2
  nodup p := children_nodup h p
  acyclic a hcycle := by
    rw [isChild_children] at hcycle
    obtain ⟨p, hap, hlast⟩ := TransGen.tail'_iff.mp hcycle
    obtain ⟨hroot, -, hlink⟩ := (h.registered p a).mp hlast
    -- a cycle of the listings is a cycle of the scope links
    refine h.acyclic hroot hlink ?_
    have hback : ∀ x y, ReflTransGen t.Lists x y → ReflTransGen t.ScopeLink y x := by
      intro x y hxy
      induction hxy with
      | refl => exact .refl
      | tail _ hstep ih => exact .head ((h.registered _ _).mp hstep).2.2 ih
    exact hback a p hap

theorem PathToRoot.above (hpath : PathToRoot t id path) {x : PID} (hx : x ∈ path) :
    ReflTransGen t.ScopeLink id x := by
  induction hpath with
  | root =>
    rw [mem_singleton.mp hx]
  | inner _ hlink _ ih =>
    rcases mem_cons.mp hx with rfl | hx
    · exact .refl
    · exact .head hlink (ih hx)

end Strategies

/-! ## Resolution -/

section Resolution

open Table

variable {t : Table PID Obj} {start : PID}

theorem Table.ConsistentBut.wellFounded (h : ConsistentBut [] t) : WellFounded fun c p => IsChild t.children p c := by
  refine h.isTree.wellFounded (s := t.placementTab_.keys.toFinset) ?_
  have hkey : ∀ {id}, t.contains id → id ∈ t.placementTab_.keys.toFinset := by
    intro id hid
    rw [mem_toFinset]
    exact AList.lookup_isSome.mp hid
  intro p c hchild
  have hlink := ((h.registered p c).mp (mem_children.mp hchild)).2.2
  exact ⟨hkey (h.contains_scope hlink), hkey hlink.contains⟩

end Resolution

end Lumiera.Steam.MObject.Session
