import Mathlib.Data.List.Chain

/-! # Arrays which grow

An array holds its elements in storage reserved beforehand, and is relocated when this is used up. To
add an element at the end, or anywhere on relocation, elements are constructed only. An insertion within
the storage shifts the elements behind it, and does so by assigning each one to the next. Where elements
can not be assigned to each other, the exception leaves the array with the shift done half way. -/

namespace Lumiera

open List

universe u

/-- What an operation leaves behind, and whether it was left with an exception. -/
structure Performed (σ : Type u) where
  state : σ
  raised : Bool

/-- **How elements are assigned**. The assignment may be refused, but if it is not, then the target is
what the source was; an element moved away can be assigned to as before. -/
structure Assigning (α : Type u) where
  /-- `assign target source` -/
  assign : α → α → Option α
  /-- What is left of an element moved away. -/
  husk : α → α
  assign_eq : ∀ {target source result}, assign target source = some result → result = source
  assign_husk : ∀ target source, assign (husk target) source = assign target source

/-- How much storage to reserve, when there is none left for another element. -/
structure Growth where
  next : Nat → Nat
  lt_next : ∀ n, n < next n

namespace Assigning

variable {α : Type u} (A : Assigning α)

/-- Whether the target can be assigned from the source. -/
def accepts (target source : α) : Bool := (A.assign target source).isSome

/-! ## Shifting elements -/

/-- The elements are shifted, beginning at the last one, each to the place of its successor; the new
element goes to the last place reached. All elements are listed backwards. -/
def shiftDown (x : α) : α → List α → Performed (List α)
  | target, [] =>
    match A.assign target x with
    | some x' => ⟨[x'], false⟩
    | none => ⟨[target], true⟩
  | target, source :: rest =>
    match A.assign target source with
    | some moved =>
      let onward := shiftDown x (A.husk source) rest
      ⟨moved :: onward.state, onward.raised⟩
    -- the exception leaves what was shifted before, and the husk in the middle
    | none => ⟨target :: source :: rest, true⟩

/-- Insertion at the front of elements with a spare place behind: the last element is moved there by
construction, the others by assignment. -/
def shiftFront (elems : List α) (x : α) : Performed (List α) :=
  match elems.reverse with
  | [] => ⟨[x], false⟩
  | last :: rest =>
    let shifted := A.shiftDown x (A.husk last) rest
    ⟨(last :: shifted.state).reverse, shifted.raised⟩

variable {A} {x target : α} {rest elems : List α}

theorem accepts_husk (target source : α) : A.accepts (A.husk target) source = A.accepts target source := by
  rw [accepts, assign_husk, accepts]

theorem length_shiftDown : (A.shiftDown x target rest).state.length = rest.length + 1 := by
  induction rest generalizing target with
  | nil =>
    rw [shiftDown]
    split <;> rfl
  | cons source rest ih =>
    rw [shiftDown]
    split
    · exact congrArg (· + 1) ih
    · rfl

theorem length_shiftFront : (A.shiftFront elems x).state.length = elems.length + 1 := by
  unfold shiftFront
  split
  · next hnil => rw [reverse_eq_nil_iff.mp hnil]; rfl
  · next last rest hlast =>
      have hlength := congrArg List.length hlast
      rw [length_reverse] at hlength
      rw [hlength, length_reverse, length_cons, length_shiftDown, length_cons]

theorem shiftDown_done_iff : (A.shiftDown x target rest).raised = false ↔
    (target :: (rest ++ [x])).IsChain fun t s => A.accepts t s := by
  -- by induction on the elements still to be shifted, where the target is a husk of any of them
  induction rest generalizing target with
  | nil =>
    rw [shiftDown, nil_append, isChain_pair, accepts]
    cases A.assign target x <;> simp
  | cons source rest ih =>
    rw [shiftDown, cons_append, isChain_cons_cons]
    have hfirst : ∀ xs : List α, (A.husk source :: xs).IsChain (fun t s => A.accepts t s) ↔
        (source :: xs).IsChain fun t s => A.accepts t s := by
      rintro (_ | ⟨y, xs⟩)
      · simp
      · rw [isChain_cons_cons, isChain_cons_cons, accepts_husk]
    cases hassign : A.assign target source with
    | none => simp [accepts, hassign]
    | some moved =>
      have haccepts : A.accepts target source = true := by rw [accepts, hassign, Option.isSome_some]
      rw [ih, hfirst]
      exact ⟨fun h => ⟨haccepts, h⟩, fun h => h.2⟩

theorem state_shiftDown (h : (A.shiftDown x target rest).raised = false) :
    (A.shiftDown x target rest).state = rest ++ [x] := by
  induction rest generalizing target with
  | nil =>
    rw [shiftDown] at h ⊢
    cases hassign : A.assign target x with
    | none =>
      rw [hassign] at h
      cases h
    | some x' => rw [A.assign_eq hassign, nil_append]
  | cons source rest ih =>
    rw [shiftDown] at h ⊢
    cases hassign : A.assign target source with
    | none =>
      rw [hassign] at h
      cases h
    | some moved =>
      rw [hassign] at h
      rw [A.assign_eq hassign]
      exact congrArg (source :: ·) (ih h)

theorem shiftFront_done_iff : (A.shiftFront elems x).raised = false ↔
    (x :: elems).IsChain fun s t => A.accepts t s := by
  unfold shiftFront
  split
  · next hnil =>
      rw [reverse_eq_nil_iff.mp hnil]
      simp
  · next last rest hlast =>
      have hfirst : (A.husk last :: (rest ++ [x])).IsChain (fun t s => A.accepts t s) ↔
          (last :: (rest ++ [x])).IsChain fun t s => A.accepts t s := by
        cases rest with
        | nil => rw [nil_append, isChain_pair, isChain_pair, accepts_husk]
        | cons y rest => rw [cons_append, isChain_cons_cons, isChain_cons_cons, accepts_husk]
      have hreverse : (x :: elems).reverse = last :: (rest ++ [x]) := by
        rw [reverse_cons, hlast, cons_append]
      rw [shiftDown_done_iff, hfirst, ← hreverse, isChain_reverse]

theorem state_shiftFront (h : (A.shiftFront elems x).raised = false) : (A.shiftFront elems x).state = x :: elems := by
  unfold shiftFront at h ⊢
  split
  · next hnil => rw [reverse_eq_nil_iff.mp hnil]
  · next last rest hlast =>
      rw [hlast] at h
      have helems : elems = (last :: rest).reverse := by rw [← hlast, reverse_reverse]
      show (last :: (A.shiftDown x (A.husk last) rest).state).reverse = x :: elems
      rw [state_shiftDown h, helems, ← cons_append, reverse_append]
      rfl

end Assigning

/-! ## The array -/

/-- **An array** holds no more elements than there is storage for. -/
structure GrowingArray (α : Type u) where
  elems : List α
  /-- The number of places reserved. -/
  capacity : Nat
  fits : elems.length ≤ capacity

namespace GrowingArray

variable {α : Type u} (growth : Growth) (A : Assigning α)

/-- Whether there is a place for another element. -/
def hasSpare (v : GrowingArray α) : Bool := v.elems.length < v.capacity

/-- Adds an element at the end. -/
def pushBack (v : GrowingArray α) (x : α) : GrowingArray α :=
  if h : v.hasSpare then
    ⟨v.elems ++ [x], v.capacity, by
      rw [length_append, length_singleton]
      exact of_decide_eq_true h⟩
  else
    ⟨v.elems ++ [x], growth.next v.elems.length, by
      rw [length_append, length_singleton]
      exact growth.lt_next _⟩

/-- Adds an element in front of all others. -/
def insertFront (v : GrowingArray α) (x : α) : Performed (GrowingArray α) :=
  if h : v.hasSpare then
    let shifted := A.shiftFront v.elems x
    ⟨⟨shifted.state, v.capacity, by
      rw [A.length_shiftFront]
      exact of_decide_eq_true h⟩, shifted.raised⟩
  else
    ⟨⟨x :: v.elems, growth.next v.elems.length, growth.lt_next _⟩, false⟩

/-- Assigns to the element at a given position. -/
def assignAt (v : GrowingArray α) (i : Nat) (h : i < v.elems.length) (x : α) : Performed (GrowingArray α) :=
  match A.assign v.elems[i] x with
  | some x' => ⟨⟨v.elems.set i x', v.capacity, by rw [length_set]; exact v.fits⟩, false⟩
  | none => ⟨v, true⟩

variable {growth A} {v : GrowingArray α} {x : α}

@[simp] theorem elems_pushBack : (v.pushBack growth x).elems = v.elems ++ [x] := by
  unfold pushBack
  split <;> rfl

theorem assignAt_raised_iff {i : Nat} (h : i < v.elems.length) :
    (v.assignAt A i h x).raised = true ↔ A.accepts v.elems[i] x = false := by
  unfold assignAt Assigning.accepts
  cases A.assign v.elems[i] x <;> simp

theorem assignAt_of_raised {i : Nat} (h : i < v.elems.length) (hraised : (v.assignAt A i h x).raised = true) :
    (v.assignAt A i h x).state = v := by
  unfold assignAt at hraised ⊢
  cases hassign : A.assign v.elems[i] x with
  | none => rfl
  | some x' =>
    rw [hassign] at hraised
    cases hraised

theorem elems_assignAt {i : Nat} (h : i < v.elems.length) (hdone : (v.assignAt A i h x).raised = false) :
    (v.assignAt A i h x).state.elems = v.elems.set i x := by
  unfold assignAt at hdone ⊢
  cases hassign : A.assign v.elems[i] x with
  | none =>
    rw [hassign] at hdone
    cases hdone
  | some x' => rw [A.assign_eq hassign]

/-- **Insertion at the front** is refused only within the storage, and if there are elements next to each
other which can not be assigned. -/
theorem insertFront_raised_iff : (v.insertFront growth A x).raised = true ↔
    v.hasSpare = true ∧ ¬ (x :: v.elems).IsChain fun s t => A.accepts t s := by
  unfold insertFront
  split
  · next hspare =>
      rw [← Assigning.shiftFront_done_iff, Bool.not_eq_false]
      exact ⟨fun h => ⟨hspare, h⟩, fun h => h.2⟩
  · next hfull => exact ⟨nofun, fun h => absurd h.1 hfull⟩

theorem elems_insertFront (h : (v.insertFront growth A x).raised = false) :
    (v.insertFront growth A x).state.elems = x :: v.elems := by
  unfold insertFront at h ⊢
  split
  · next hspare =>
      rw [dif_pos hspare] at h
      exact Assigning.state_shiftFront h
  · rfl

end GrowingArray

end Lumiera
