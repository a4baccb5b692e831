import Mathlib.Data.List.SplitBy
import Mathlib.Data.List.TakeWhile
import Lumiera.Base.Iteration

/-! # Pipelines for iteration (`lib/iter-explorer.hpp`)

Some layers of an iterator pipeline, on top of a source sequence. An `Expander` keeps a stack of child
sequences: the current element can be replaced by its children, and iteration returns to what is behind
it when these are exhausted. `Grouping` packages the elements into chunks of fixed size, and
`GroupAggregator` combines the elements which belong together; both pull a group ahead of the consumer.

An access behind the end of a sequence has no result. -/

namespace Lumiera.Lib.IterExplorer

open Function List

universe u v

variable {α : Type u}

/-- `++` on a sequence. -/
def advance : List α → Option (List α)
  | [] => none
  | _ :: rest => some rest

/-! ## Expanding children -/

/-- **A source with child sequences** (`Expander`). -/
structure Expander (α : Type u) where
  /-- What is left of the source. -/
  src : List α
  /-- The stack of child sequences, the innermost one first. -/
  expansions_ : List (List α)

namespace Expander

def depth (s : Expander α) : ℕ := s.expansions_.length

def hasChildren (s : Expander α) : Bool := 0 < s.depth

/-- The innermost child sequence, or else the source. -/
def innermost (s : Expander α) : List α := s.expansions_.head?.getD s.src

/-- `checkPoint`: there are children, or elements of the source. -/
def checkPoint (s : Expander α) : Bool := s.hasChildren || !s.src.isEmpty

def yield (s : Expander α) : Option α := s.innermost.head?

/-- `incrementCurrent` -/
def incrementCurrent (s : Expander α) : Option (Expander α) :=
  match s.expansions_ with
  | [] => (advance s.src).map fun src => { s with src := src }
  | top :: rest => (advance top).map fun top => { s with expansions_ := top :: rest }

/-- `dropExhaustedChildren`: pop an exhausted sequence, and consume the source of its expansion. -/
def dropExhaustedChildren (src : List α) : List α → List (List α) → Option (Expander α)
  | x :: top, rest => some ⟨src, (x :: top) :: rest⟩
  | [], [] => (advance src).map fun src => ⟨src, []⟩
  | [], [] :: _ => none
  | [], (_ :: top) :: rest => dropExhaustedChildren src top rest

def iterNext (s : Expander α) : Option (Expander α) :=
  s.incrementCurrent.bind fun s =>
    match s.expansions_ with
    | [] => some s
    | top :: rest => dropExhaustedChildren s.src top rest

/-- `expandChildren`: the source of the expansion is retained, unless there are no children. -/
def expandChildren (f : α → List α) (s : Expander α) : Option (Expander α) :=
  s.yield.bind fun x =>
    if (f x).isEmpty then s.iterNext
    else some { s with expansions_ := f x :: s.expansions_ }

/-- `explore (src).expand (f)` -/
def expand (src : List α) : Expander α := ⟨src, []⟩

/-- `AutoExpander::iterNext` -/
def autoNext (f : α → List α) (s : Expander α) : Option (Expander α) :=
  if s.checkPoint then s.expandChildren f else none

/-- **`explore (src).expandAll (f)`** as a state core, which shows the elements with their depth. -/
def expandAll (f : α → List α) : StateCore (Expander α) (α × ℕ) where
  checkPoint := checkPoint
  yield s := s.yield.map fun x => (x, s.depth)
  iterNext := autoNext f

/-! ### What is ahead -/

/-- What is behind the elements expanded, level by level, where the last one is the source. -/
def behind (src : List α) : List (List α) → List (α × ℕ)
  | [] => src.tail.map (·, 0)
  | top :: rest => top.tail.map (·, rest.length + 1) ++ behind src rest

/-- **The elements ahead**, with their depth, when nothing else is expanded. -/
def ahead (s : Expander α) : List (α × ℕ) :=
  match s.expansions_ with
  | [] => s.src.map (·, 0)
  | top :: rest => top.map (·, rest.length + 1) ++ behind s.src rest

/-- The state between operations: no child sequence is exhausted, and each was expanded from an element. -/
structure Invariant (s : Expander α) : Prop where
  notExhausted : ∀ top ∈ s.expansions_, top ≠ []
  hasSource : s.expansions_ ≠ [] → s.src ≠ []

variable {f : α → List α} {s : Expander α} {src top : List α} {rest : List (List α)} {x : α} {d : ℕ}
  {others : List (α × ℕ)}

theorem Invariant.current (h : s.Invariant) : s.checkPoint = !s.ahead.isEmpty ∧
    s.yield.map (·, s.depth) = s.ahead.head? := by
  obtain ⟨src, stack⟩ := s
  cases stack with
  | nil => cases src <;> exact ⟨rfl, rfl⟩
  | cons top rest =>
    obtain ⟨x, top, rfl⟩ := exists_cons_of_ne_nil (h.notExhausted top mem_cons_self)
    exact ⟨rfl, rfl⟩

/-- Any number of exhausted levels are dropped, and what is behind them is still ahead. -/
theorem dropExhaustedChildren_spec (hsrc : src ≠ []) (hrest : ∀ level ∈ rest, level ≠ []) :
    ∃ s, dropExhaustedChildren src top rest = some s ∧ s.Invariant ∧
      s.ahead = top.map (·, rest.length + 1) ++ behind src rest := by
  induction rest generalizing top with
  | nil =>
    cases top with
    | nil =>
      obtain ⟨y, src, rfl⟩ := exists_cons_of_ne_nil hsrc
      exact ⟨⟨src, []⟩, rfl, ⟨nofun, fun h => absurd rfl h⟩, rfl⟩
    | cons x top => exact ⟨⟨src, [x :: top]⟩, rfl, ⟨by simp, fun _ => hsrc⟩, rfl⟩
  | cons level rest ih =>
    obtain ⟨hlevel, hrest'⟩ := forall_mem_cons.mp hrest
    cases top with
    | nil =>
      obtain ⟨y, level, rfl⟩ := exists_cons_of_ne_nil hlevel
      exact ih hrest'
    | cons x top =>
      exact ⟨⟨src, (x :: top) :: level :: rest⟩, rfl,
        ⟨forall_mem_cons.mpr ⟨cons_ne_nil x top, hrest⟩, fun _ => hsrc⟩, rfl⟩

/-- Iteration consumes the current element. -/
theorem Invariant.iterNext (h : s.Invariant) {first : α × ℕ} (hahead : s.ahead = first :: others) :
    ∃ s', s.iterNext = some s' ∧ s'.Invariant ∧ s'.ahead = others := by
  obtain ⟨src, stack⟩ := s
  cases stack with
  | nil =>
    cases src with
    | nil => cases hahead
    | cons y src =>
      obtain ⟨-, rfl⟩ := List.cons.inj hahead
      exact ⟨⟨src, []⟩, rfl, ⟨nofun, fun h => absurd rfl h⟩, rfl⟩
  | cons top rest =>
    obtain ⟨htop, hrest⟩ := forall_mem_cons.mp h.notExhausted
    obtain ⟨x, top, rfl⟩ := exists_cons_of_ne_nil htop
    obtain ⟨-, rfl⟩ := List.cons.inj hahead
    exact dropExhaustedChildren_spec (h.hasSource (cons_ne_nil _ _)) hrest

/-- Expansion puts the children in the place of the current element. -/
theorem Invariant.expandChildren (h : s.Invariant) (hahead : s.ahead = (x, d) :: others) :
    ∃ s', s.expandChildren f = some s' ∧ s'.Invariant ∧ s'.ahead = (f x).map (·, d + 1) ++ others := by
  have hyield : s.yield.map (·, s.depth) = some (x, d) := by rw [h.current.2, hahead]; rfl
  obtain ⟨y, hy, hpair⟩ := Option.map_eq_some_iff.mp hyield
  obtain ⟨rfl, rfl⟩ := Prod.mk.inj hpair
  rw [Expander.expandChildren, hy, Option.bind_some]
  cases hchildren : f y with
  | nil => exact h.iterNext hahead
  | cons z children =>
    refine ⟨_, rfl, ⟨forall_mem_cons.mpr ⟨cons_ne_nil _ _, h.notExhausted⟩, fun _ => ?_⟩, ?_⟩
    · obtain ⟨src, stack⟩ := s
      cases stack with
      | nil =>
        rintro rfl
        cases hahead
      | cons top rest => exact h.hasSource (cons_ne_nil _ _)
    · obtain ⟨src, stack⟩ := s
      have hbehind : behind src stack = others := by
        cases stack with
        | nil =>
          obtain ⟨w, src, rfl⟩ := exists_cons_of_ne_nil (l := src) (by rintro rfl; cases hahead)
          exact (List.cons.inj hahead).2
        | cons top rest =>
          obtain ⟨w, top, rfl⟩ := exists_cons_of_ne_nil (h.notExhausted top mem_cons_self)
          exact (List.cons.inj hahead).2
      exact congrArg (_ ++ ·) hbehind

/-! ### The elements in preorder -/

/-- **The traversal in preorder** of a sequence of elements with their depth: each one is followed by its
children, in preorder. -/
inductive Preorder (f : α → List α) : List (α × ℕ) → List (α × ℕ) → Prop
  | nil : Preorder f [] []
  | cons {x : α} {d : ℕ} {rest below visited : List (α × ℕ)} :
      Preorder f ((f x).map (·, d + 1)) below → Preorder f rest visited →
        Preorder f ((x, d) :: rest) ((x, d) :: (below ++ visited))

namespace Preorder

variable {xs ys as bs : List (α × ℕ)}

theorem append (hxs : Preorder f xs as) (hys : Preorder f ys bs) : Preorder f (xs ++ ys) (as ++ bs) := by
  induction hxs with
  | nil => exact hys
  | cons hbelow _ _ ih =>
    rw [cons_append, cons_append, append_assoc]
    exact .cons hbelow ih

end Preorder

/-- With automatic expansion, the elements appear in preorder. -/
theorem Invariant.delivers {visited : List (α × ℕ)} (h : s.Invariant) (hvisited : Preorder f s.ahead visited) :
    (expandAll f).Delivers s visited := by
  generalize hlength : visited.length = n
  induction n using Nat.strongRecOn generalizing s visited with
  | _ n ih =>
    obtain ⟨hcheck, hyield⟩ := h.current
    generalize hahead : s.ahead = elements at *
    cases hvisited with
    | nil => exact .exhausted hcheck
    | @cons x d rest below visited hbelow hrest =>
      obtain ⟨s', hnext, hs', hahead'⟩ := h.expandChildren (f := f) hahead
      have hauto : autoNext f s = some s' := by rw [autoNext, hcheck]; exact hnext
      refine .next hcheck hyield hauto (ih _ ?_ hs' (hahead' ▸ hbelow.append hrest) rfl)
      rw [← hlength]
      exact Nat.lt_succ_self _

/-! ### Expansion at any time -/

inductive Operation
  | iterNext | expandChildren

def perform (f : α → List α) (s : Expander α) : Operation → Option (Expander α)
  | .iterNext => s.iterNext
  | .expandChildren => s.expandChildren f

/-- What an operation means for the elements ahead: the current one is consumed, or replaced by its children. -/
def performAhead (f : α → List α) : List (α × ℕ) → Operation → Option (List (α × ℕ))
  | [], _ => none
  | _ :: rest, .iterNext => some rest
  | (x, d) :: rest, .expandChildren => some ((f x).map (·, d + 1) ++ rest)

theorem Invariant.perform (h : s.Invariant) (op : Operation) :
    (s.perform f op).map ahead = performAhead f s.ahead op ∧ ∀ s', s.perform f op = some s' → s'.Invariant := by
  cases hahead : s.ahead with
  | nil =>
    -- nothing can be done behind the end
    obtain ⟨src, stack⟩ := s
    have hnone : (Expander.mk src stack).perform f op = none := by
      cases stack with
      | nil =>
        obtain rfl : src = [] := map_eq_nil_iff.mp hahead
        cases op <;> rfl
      | cons top rest =>
        obtain ⟨x, top, rfl⟩ := exists_cons_of_ne_nil (h.notExhausted top mem_cons_self)
        cases hahead
    rw [hnone]
    exact ⟨rfl, nofun⟩
  | cons first rest =>
    have hone : ∃ s', s.perform f op = some s' ∧ s'.Invariant ∧
        some s'.ahead = performAhead f (first :: rest) op := by
      cases op with
      | iterNext =>
        obtain ⟨s', hs', hinv, hahead'⟩ := h.iterNext hahead
        exact ⟨s', hs', hinv, congrArg some hahead'⟩
      | expandChildren =>
        obtain ⟨s', hs', hinv, hahead'⟩ := h.expandChildren (f := f) hahead
        exact ⟨s', hs', hinv, congrArg some hahead'⟩
    obtain ⟨s', hs', hinv, hahead'⟩ := hone
    rw [hs']
    exact ⟨hahead', fun t ht => Option.some.inj ht ▸ hinv⟩

theorem Invariant.run (h : s.Invariant) (ops : List Operation) :
    (ops.foldlM (Expander.perform f) s).map ahead = ops.foldlM (performAhead f) s.ahead ∧
      ∀ s', ops.foldlM (Expander.perform f) s = some s' → s'.Invariant := by
  induction ops generalizing s with
  | nil => exact ⟨rfl, fun s' hs' => Option.some.inj hs' ▸ h⟩
  | cons op ops ih =>
    obtain ⟨hahead, hinv⟩ := h.perform (f := f) op
    rw [foldlM_cons, foldlM_cons, ← hahead]
    cases hop : s.perform f op with
    | none => exact ⟨rfl, nofun⟩
    | some s' => exact ih (hinv s' hop)

end Expander

/-! ## Chunks of fixed size -/

/-- **A source taken in chunks** (`Grouping`). -/
structure Grouping (α : Type u) (grp : ℕ) where
  src : List α
  /-- The buffer, which is not initialised. -/
  buff_ : ℕ → Option α
  pos_ : ℕ

namespace Grouping

variable {grp : ℕ}

/-- The loop to fill the buffer. -/
def pull (grp : ℕ) : List α → ℕ → (ℕ → Option α) → Grouping α grp
  | [], pos, buff => ⟨[], buff, pos⟩
  | x :: src, pos, buff =>
    if pos < grp then pull grp src (pos + 1) (update buff pos (some x)) else ⟨x :: src, buff, pos⟩

def pullGroup (s : Grouping α grp) : Grouping α grp := pull grp s.src 0 s.buff_

def checkPoint (s : Grouping α grp) : Bool := s.pos_ == grp

/-- The complete buffer. -/
def yield (s : Grouping α grp) : List (Option α) := (List.range grp).map s.buff_

def iterNext (s : Grouping α grp) : Grouping α grp := s.pullGroup

/-- What pulling takes from the source is in the buffer thereafter. -/
theorem pull_spec (src : List α) (pos : ℕ) (buff : ℕ → Option α) (hpos : pos ≤ grp) :
    (pull grp src pos buff).src = src.drop (grp - pos) ∧
    (pull grp src pos buff).pos_ = pos + (src.take (grp - pos)).length ∧
    ∀ i, (pull grp src pos buff).buff_ i =
      if pos ≤ i ∧ i < pos + (src.take (grp - pos)).length then src[i - pos]? else buff i := by
  induction src generalizing pos buff with
  | nil => exact ⟨drop_nil.symm, by rw [take_nil]; rfl, fun i => (if_neg (by simp)).symm⟩
  | cons x src ih =>
    rw [pull]
    split
    · next hlt =>
        obtain ⟨hsrc, hpos', hbuff⟩ := ih (pos + 1) (update buff pos (some x)) hlt
        have hsub : grp - pos = grp - (pos + 1) + 1 := by omega
        rw [hsrc, hsub, take_succ_cons, length_cons]
        refine ⟨rfl, by omega, fun i => ?_⟩
        rw [hbuff]
        rcases lt_trichotomy i pos with hi | rfl | hi
        · rw [if_neg (by omega), if_neg (by omega), update_of_ne hi.ne]
        · rw [if_neg (by omega), if_pos (by omega), update_self, Nat.sub_self]
          rfl
        · obtain ⟨k, rfl⟩ := Nat.exists_eq_add_of_lt hi
          rw [show pos + k + 1 - (pos + 1) = k by omega, show pos + k + 1 - pos = k + 1 by omega,
            getElem?_cons_succ, update_of_ne (by omega)]
          exact if_congr (by omega) rfl rfl
    · next hge =>
        obtain rfl : pos = grp := by omega
        rw [Nat.sub_self]
        exact ⟨rfl, rfl, fun i => (if_neg (by simp)).symm⟩

end Grouping

/-! ## Groups of elements -/

/-- **A source grouped by a value** (`GroupAggregator`), with the aggregate of the present group. -/
structure GroupAggregator (α : Type u) (β : Type v) where
  src : List α
  agg_ : Option β

namespace GroupAggregator

variable {β : Type v} {γ : Type} [DecidableEq γ]

/-- The loop to aggregate the elements, as long as the group is the same. -/
def pull (grouping_ : α → γ) (aggregate_ : β → α → β) (group : γ) : List α → β → GroupAggregator α β
  | [], agg => ⟨[], some agg⟩
  | x :: src, agg =>
    if group = grouping_ x then pull grouping_ aggregate_ group src (aggregate_ agg x) else ⟨x :: src, some agg⟩

/-- `pullGroup`: the group is given by the element at the front of the source; this element is aggregated in
any case, and then the loop goes on. -/
def pullGroup (grouping_ : α → γ) (aggregate_ : β → α → β) (dflt : β) : List α → Option (GroupAggregator α β)
  | [] => none
  | x :: src => some (pull grouping_ aggregate_ (grouping_ x) src (aggregate_ dflt x))

def core (g : α → γ) (agg : β → α → β) (dflt : β) : StateCore (GroupAggregator α β) β where
  checkPoint s := s.agg_.isSome
  yield s := s.agg_
  iterNext s := if s.src.isEmpty then some ⟨s.src, none⟩ else pullGroup g agg dflt s.src

variable {g : α → γ} {agg : β → α → β} {dflt : β}

theorem pull_spec (group : γ) (src : List α) (b : β) : pull g agg group src b =
    ⟨src.dropWhile (group = g ·), some ((src.takeWhile (group = g ·)).foldl agg b)⟩ := by
  induction src generalizing b with
  | nil => rfl
  | cons x src ih =>
    rw [pull, dropWhile_cons, takeWhile_cons]
    by_cases hx : group = g x
    · simp only [hx]
      exact hx ▸ ih _
    · simp [hx]

end GroupAggregator

end Lumiera.Lib.IterExplorer
