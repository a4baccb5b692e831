import Lumiera.Base.Backtracking

/-! # A filter on a cursor (`lib/iter-cursor.hpp`, `MutableFilter` in `lib/iter-explorer.hpp`)

A cursor goes through a sequence forwards or backwards, and may be turned around at any place. A filter on top of
it pulls until an element is approved by its predicate, which can be exchanged or extended on the way, and which
may raise an exception. -/

namespace Lumiera.Lib

open List

universe u

/-! ## The cursor -/

/-- **The cursor** (`CursorGear`) on a sequence of `n` elements. -/
structure CursorGear (n : ℕ) where
  /-- The place between elements; going backwards, the element in front of it is the current one. -/
  pos_ : ℕ
  backwards_ : Bool
  inRange : pos_ ≤ n

namespace CursorGear

variable {n : ℕ}

def checkPoint (c : CursorGear n) : Bool := if c.backwards_ then c.pos_ ≠ 0 else c.pos_ ≠ n

/-- The position of the current element. -/
def index (c : CursorGear n) : ℕ := if c.backwards_ then c.pos_ - 1 else c.pos_

variable {c : CursorGear n}

theorem index_lt (h : c.checkPoint = true) : c.index < n := by
  have hrange := c.inRange
  unfold checkPoint at h
  unfold index
  split at h
  · next hback =>
      have hne : c.pos_ ≠ 0 := of_decide_eq_true h
      rw [if_pos hback]
      omega
  · next hfront =>
      have hne : c.pos_ ≠ n := of_decide_eq_true h
      rw [if_neg hfront]
      omega

def iterNext (c : CursorGear n) (h : c.checkPoint = true) : CursorGear n :=
  if hback : c.backwards_ then ⟨c.pos_ - 1, true, Nat.le_trans (Nat.sub_le _ _) c.inRange⟩
  else ⟨c.pos_ + 1, false, by
    rw [checkPoint, if_neg hback] at h
    have hne : c.pos_ ≠ n := of_decide_eq_true h
    exact Nat.lt_of_le_of_ne c.inRange hne⟩

/-- `reverse`: sets the direction, and stays at the current element when turning around. -/
def reverse (c : CursorGear n) (backwards : Bool) : CursorGear n :=
  if backwards = c.backwards_ then c
  else if n = 0 then c
  else if c.backwards_ then
    if c.pos_ ≠ 0 then ⟨c.pos_ - 1, false, Nat.le_trans (Nat.sub_le _ _) c.inRange⟩
    else ⟨c.pos_, false, c.inRange⟩
  else if h : c.pos_ ≠ n then ⟨c.pos_ + 1, true, Nat.lt_of_le_of_ne c.inRange h⟩
  else ⟨c.pos_, true, c.inRange⟩

/-- The number of elements up to the end in the current direction. -/
def remaining (c : CursorGear n) : ℕ := if c.backwards_ then c.pos_ else n - c.pos_

theorem remaining_iterNext (h : c.checkPoint = true) : (c.iterNext h).remaining < c.remaining := by
  have hindex := index_lt h
  unfold checkPoint at h
  unfold iterNext remaining
  unfold index at hindex
  by_cases hback : c.backwards_ = true
  · rw [dif_pos hback, if_pos hback]
    rw [if_pos hback] at h
    have hne : c.pos_ ≠ 0 := of_decide_eq_true h
    show c.pos_ - 1 < c.pos_
    omega
  · rw [dif_neg hback, if_neg hback]
    rw [if_neg hback] at hindex
    show n - (c.pos_ + 1) < n - c.pos_
    omega

/-! ## Positions -/

variable (n) in
/-- The positions beyond a given one in some direction, as they are passed. -/
def beyond (backwards : Bool) (i : ℕ) : List ℕ :=
  if backwards then (List.range i).reverse else List.range' (i + 1) (n - (i + 1))

theorem mem_beyond {backwards : Bool} {i j : ℕ} (hi : i < n) :
    j ∈ beyond n backwards i ↔ j < n ∧ if backwards then j < i else i < j := by
  unfold beyond
  split
  · rw [mem_reverse, mem_range]
    omega
  · rw [mem_range'_1]
    omega

/-- The positions from the current one on. -/
def ahead (c : CursorGear n) : List ℕ :=
  if c.backwards_ then (List.range c.pos_).reverse else List.range' c.pos_ (n - c.pos_)

theorem ahead_of_exhausted (h : c.checkPoint = false) : c.ahead = [] := by
  unfold checkPoint at h
  unfold ahead
  split at h
  · next hback =>
      have hzero : c.pos_ = 0 := not_not.mp (of_decide_eq_false h)
      rw [if_pos hback, hzero]
      rfl
  · next hfront =>
      have hend : c.pos_ = n := not_not.mp (of_decide_eq_false h)
      rw [if_neg hfront, hend, Nat.sub_self]
      rfl

theorem ahead_iterNext (h : c.checkPoint = true) : (c.iterNext h).ahead = beyond n c.backwards_ c.index := by
  unfold iterNext ahead beyond index
  by_cases hback : c.backwards_ = true
  · rw [dif_pos hback, if_pos rfl, if_pos hback, if_pos hback]
  · rw [dif_neg hback, if_neg Bool.false_ne_true, if_neg hback, if_neg hback]

theorem ahead_of_valid (h : c.checkPoint = true) : c.ahead = c.index :: (c.iterNext h).ahead := by
  have hindex := index_lt h
  rw [ahead_iterNext h]
  unfold checkPoint at h
  unfold ahead beyond index at *
  by_cases hback : c.backwards_ = true
  · rw [if_pos hback] at h
    have hne : c.pos_ ≠ 0 := of_decide_eq_true h
    obtain ⟨k, hk⟩ := Nat.exists_eq_succ_of_ne_zero hne
    rw [if_pos hback, if_pos hback, if_pos hback, hk, range_succ, reverse_concat]
    rfl
  · rw [if_neg hback] at hindex
    have hlength : n - c.pos_ = n - (c.pos_ + 1) + 1 := by omega
    rw [if_neg hback, if_neg hback, if_neg hback, hlength, range'_succ]

theorem reverse_spec (h : c.checkPoint = true) (backwards : Bool) : (c.reverse backwards).checkPoint = true ∧
    (c.reverse backwards).index = c.index ∧ (c.reverse backwards).backwards_ = backwards := by
  have hindex := index_lt h
  have hn : n ≠ 0 := Nat.ne_of_gt (Nat.lt_of_le_of_lt (Nat.zero_le _) hindex)
  unfold reverse
  by_cases hsame : backwards = c.backwards_
  · rw [if_pos hsame]
    exact ⟨h, rfl, hsame.symm⟩
  · rw [if_neg hsame, if_neg hn]
    unfold checkPoint at h
    unfold index at hindex
    by_cases hback : c.backwards_ = true
    · have hfront : backwards = false := by rwa [hback, Bool.not_eq_true] at hsame
      rw [if_pos hback] at h hindex
      rw [if_pos hback, if_pos (of_decide_eq_true h)]
      refine ⟨?_, ?_, hfront.symm⟩
      · exact decide_eq_true (Nat.ne_of_lt hindex)
      · rw [index, index, if_pos hback, if_neg Bool.false_ne_true]
    · have hturned : backwards = true := by
        rw [Bool.not_eq_true] at hback
        rwa [hback, Bool.not_eq_false] at hsame
      rw [if_neg hback] at h
      rw [if_neg hback, dif_pos (of_decide_eq_true h)]
      refine ⟨rfl, ?_, hturned.symm⟩
      rw [index, index, if_neg hback]
      rfl

end CursorGear

/-! ## The filter -/

variable {α : Type u}

/-- **A filter which can be remoulded** (`MutableFilter`), on a cursor over a sequence. -/
structure MutableFilter (seq : List α) where
  cursor : CursorGear seq.length
  /-- Without a predicate, the filter is disabled. -/
  predicate_ : Option (α → Option Bool)

/-- The current element of a cursor. -/
def CursorGear.yield (seq : List α) (c : CursorGear seq.length) (h : c.checkPoint = true) : α :=
  have hindex := CursorGear.index_lt h
  seq[c.index]

namespace MutableFilter

variable {seq : List α}

/-- The loop to pull until the predicate holds. -/
def pull (predicate : α → Option Bool) (c : CursorGear seq.length) : Option (CursorGear seq.length) :=
  if h : c.checkPoint = true then
    match predicate (c.yield seq h) with
    | none => none
    | some true => some c
    | some false => pull predicate (c.iterNext h)
  else some c
termination_by c.remaining
decreasing_by exact CursorGear.remaining_iterNext h

/-- `pullFilter` -/
def pullFilter (f : MutableFilter seq) : Option (MutableFilter seq) :=
  match f.predicate_ with
  | none => some f
  | some predicate => (pull predicate f.cursor).map fun c => { f with cursor := c }

def checkPoint (f : MutableFilter seq) : Bool := f.cursor.checkPoint

/-- `++filter`, which is not possible at the end. -/
def iterNext (f : MutableFilter seq) : Option (MutableFilter seq) :=
  if h : f.cursor.checkPoint = true then ({ f with cursor := f.cursor.iterNext h } : MutableFilter seq).pullFilter
  else none

def isDisabled (f : MutableFilter seq) : Bool := f.predicate_.isNone

def reverse (f : MutableFilter seq) (backwards : Bool) : MutableFilter seq :=
  { f with cursor := f.cursor.reverse backwards }

def disableFilter (f : MutableFilter seq) : MutableFilter seq := { f with predicate_ := none }

/-- `remouldFilter`: combines the predicate with a clause, and pulls to establish the invariant again. -/
def remouldFilter (f : MutableFilter seq) (additionalClause : α → Option Bool)
    (buildCombinedClause : (α → Option Bool) → (α → Option Bool) → α → Option Bool) :
    Option (MutableFilter seq) :=
  let acceptAll := fun _ => some true
  ({ f with predicate_ := some (buildCombinedClause (f.predicate_.getD acceptAll) additionalClause) } :
    MutableFilter seq).pullFilter

/-- Both predicates hold; the second one is not evaluated unless the first one holds. -/
def both (first chain : α → Option Bool) (val : α) : Option Bool :=
  (first val).bind fun holds => if holds then chain val else some false

def andFilter (f : MutableFilter seq) (conjunctiveClause : α → Option Bool) : Option (MutableFilter seq) :=
  f.remouldFilter conjunctiveClause both

def setNewFilter (f : MutableFilter seq) (entirelyDifferentPredicate : α → Option Bool) :
    Option (MutableFilter seq) :=
  f.remouldFilter entirelyDifferentPredicate fun _ chain => chain

/-! ## The elements approved -/

/-- **The elements approved by a predicate**, as the cursors at these, up to an exception. -/
def scan (predicate : α → Option Bool) (c : CursorGear seq.length) : List (Option (CursorGear seq.length)) :=
  if h : c.checkPoint = true then
    match predicate (c.yield seq h) with
    | none => [none]
    | some true => some c :: scan predicate (c.iterNext h)
    | some false => scan predicate (c.iterNext h)
  else []
termination_by c.remaining
decreasing_by all_goals exact CursorGear.remaining_iterNext h

variable {predicate : α → Option Bool} {c c' : CursorGear seq.length} {f f' : MutableFilter seq}

theorem scan_exhausted (h : c.checkPoint = false) : scan predicate c = [] := by
  rw [scan, dif_neg (Bool.eq_false_iff.mp h)]

theorem scan_valid (h : c.checkPoint = true) : scan predicate c =
    match predicate (c.yield seq h) with
    | none => [none]
    | some true => some c :: scan predicate (c.iterNext h)
    | some false => scan predicate (c.iterNext h) := by
  rw [scan, dif_pos h]

theorem pull_spec (predicate : α → Option Bool) (c : CursorGear seq.length) :
    (pull predicate c = none ∧ scan predicate c = [none]) ∨
    ∃ c', pull predicate c = some c' ∧ scan predicate c = scan predicate c' ∧ c'.remaining ≤ c.remaining ∧
      ∀ h : c'.checkPoint = true, predicate (c'.yield seq h) = some true := by
  induction c using pull.induct predicate with
  | case1 c h hraises =>
    refine .inl ⟨?_, ?_⟩
    · rw [pull, dif_pos h, hraises]
    · rw [scan_valid h, hraises]
  | case2 c h happroved =>
    refine .inr ⟨c, ?_, rfl, Nat.le_refl _, fun _ => happroved⟩
    rw [pull, dif_pos h, happroved]
  | case3 c h hrejected ih =>
    have hpull : pull predicate c = pull predicate (c.iterNext h) := by
      rw [pull, dif_pos h, hrejected]
    have hscan : scan predicate c = scan predicate (c.iterNext h) := by rw [scan_valid h, hrejected]
    rw [hpull, hscan]
    rcases ih with hnone | ⟨c', heq, hsame, hle, happroved⟩
    · exact .inl hnone
    · exact .inr ⟨c', heq, hsame, Nat.le_trans hle (Nat.le_of_lt (CursorGear.remaining_iterNext h)), happroved⟩
  | case4 c h =>
    refine .inr ⟨c, ?_, rfl, Nat.le_refl _, fun hvalid => absurd hvalid h⟩
    rw [pull, dif_neg h]

theorem checkPoint_of_mem_scan (h : some c' ∈ scan predicate c) : c'.checkPoint = true := by
  induction c using scan.induct predicate with
  | case1 c hvalid hraises =>
    rw [scan_valid hvalid, hraises] at h
    cases mem_singleton.mp h
  | case2 c hvalid happroved ih =>
    rw [scan_valid hvalid, happroved] at h
    rcases mem_cons.mp h with heq | hmem
    · cases heq
      exact hvalid
    · exact ih hmem
  | case3 c hvalid hrejected ih =>
    rw [scan_valid hvalid, hrejected] at h
    exact ih h
  | case4 c hexhausted =>
    rw [scan_exhausted (Bool.not_eq_true _ ▸ hexhausted)] at h
    cases h

theorem remaining_pullFilter (h : f.pullFilter = some f') : f'.cursor.remaining ≤ f.cursor.remaining := by
  unfold pullFilter at h
  split at h
  · cases Option.some.inj h
    exact Nat.le_refl _
  · next predicate _ =>
      obtain ⟨c, hpull, rfl⟩ := Option.map_eq_some_iff.mp h
      rcases pull_spec predicate f.cursor with ⟨hnone, -⟩ | ⟨c', heq, -, hle, -⟩
      · rw [hnone] at hpull
        cases hpull
      · rw [hpull] at heq
        cases Option.some.inj heq
        exact hle

theorem predicate_pullFilter (h : f.pullFilter = some f') : f'.predicate_ = f.predicate_ := by
  unfold pullFilter at h
  split at h
  · cases Option.some.inj h
    rfl
  · obtain ⟨c, -, rfl⟩ := Option.map_eq_some_iff.mp h
    rfl

theorem isDisabled_iterNext (h : f.iterNext = some f') : f'.isDisabled = f.isDisabled := by
  unfold iterNext at h
  split at h
  · rw [isDisabled, predicate_pullFilter h, isDisabled]
  · cases h

variable (seq) in
/-- The filter, as an iteration which ends. -/
def core : FiniteCore (MutableFilter seq) where
  checkPoint := checkPoint
  iterNext := iterNext
  remaining f := f.cursor.remaining
  valid_of_next {f f'} h := by
    unfold iterNext at h
    split at h
    · next hvalid => exact hvalid
    · cases h
  decreases {f f'} h := by
    unfold iterNext at h
    split at h
    · next hvalid => exact Nat.lt_of_le_of_lt (remaining_pullFilter h) (CursorGear.remaining_iterNext hvalid)
    · cases h

/-- The filters at some elements. -/
def filtersAt (predicate : α → Option Bool) (os : List (Option (CursorGear seq.length))) :
    List (Option (MutableFilter seq)) :=
  os.map (Option.map fun c => ⟨c, some predicate⟩)

/-- The outcomes of a filter, when its current element is approved, are the elements approved from there. -/
theorem outcomes_eq (c : CursorGear seq.length)
    (happroved : ∀ h : c.checkPoint = true, predicate (c.yield seq h) = some true) :
    (core seq).outcomes ⟨c, some predicate⟩ = filtersAt predicate (scan predicate c) := by
  -- by induction on the elements left, from one which is approved to the next one
  generalize hremaining : c.remaining = k
  induction k using Nat.strongRecOn generalizing c with
  | _ k ih =>
    cases hvalid : c.checkPoint with
    | false => rw [FiniteCore.outcomes_of_exhausted hvalid, scan_exhausted hvalid]; rfl
    | true =>
      have hnext : iterNext ⟨c, some predicate⟩ = (pull predicate (c.iterNext hvalid)).map fun c' =>
          (⟨c', some predicate⟩ : MutableFilter seq) := dif_pos hvalid
      rw [FiniteCore.outcomes_of_valid hvalid, scan_valid hvalid, happroved hvalid]
      show some _ :: (core seq).following (iterNext ⟨c, some predicate⟩) = some _ :: filtersAt predicate _
      rw [hnext]
      rcases pull_spec predicate (c.iterNext hvalid) with ⟨hnone, hscan⟩ | ⟨c', heq, hscan, hle, happroved'⟩
      · rw [hnone, hscan]
        rfl
      · rw [heq, hscan]
        have hless : c'.remaining < k :=
          hremaining ▸ Nat.lt_of_le_of_lt hle (CursorGear.remaining_iterNext hvalid)
        exact congrArg _ (ih _ hless c' happroved' rfl)

theorem following_pullFilter (predicate : α → Option Bool) (c : CursorGear seq.length) :
    (core seq).following (pullFilter ⟨c, some predicate⟩) = filtersAt predicate (scan predicate c) := by
  have hfilter : pullFilter ⟨c, some predicate⟩ =
      (pull predicate c).map fun c' => (⟨c', some predicate⟩ : MutableFilter seq) := rfl
  rw [hfilter]
  rcases pull_spec predicate c with ⟨hnone, hscan⟩ | ⟨c', heq, hscan, -, happroved⟩
  · rw [hnone, hscan]
    rfl
  · rw [heq, hscan]
    exact outcomes_eq c' happroved

end MutableFilter

end Lumiera.Lib
