import Mathlib.Data.List.AList

/-! # The query focus (`query-focus-stack.hpp`, `query-focus.cpp`, `scope-path.cpp`)

A `QueryFocus` is a smart handle, linked to a frame on the stack of focus paths. Each frame is a
path of scopes from model root down to the current location, together with the number of handles
referring to it. The frame on top of the stack, save those which are no longer referred, is the
current focus; unused frames are discarded lazily, when the current focus is accessed. -/

namespace Lumiera.Steam.MObject.Session

universe u v

/-! ## Placements and scopes -/

/-- **A fixed tree of placements**: each placement within the model has a scope, and root is its own scope. -/
structure PlacementTree (P : Type u) where
  root : P
  /-- The enclosing scope; none for a placement which is not part of the model. -/
  getScope : P → Option P
  /-- The level of nesting. -/
  depth : P → ℕ
  getScope_root : getScope root = some root
  depth_root : depth root = 0
  getScope_eq : ∀ p scope, getScope p = some scope → p = root ∨
    (depth p = depth scope + 1 ∧ (getScope scope).isSome)

namespace PlacementTree

variable {P : Type u} [DecidableEq P] (T : PlacementTree P)

/-- `Scope::isValid`: whether the scope can be located within the model. -/
def isValid (target : P) : Bool := (T.getScope target).isSome

/-- The placements delivered by the `UpExplorer`, from a start point up to root. -/
def explore : ℕ → P → List P
  | 0, _ => []
  | steps + 1, tip =>
    match T.getScope tip with
    | none => [tip]
    | some scope => if scope = tip then [tip] else tip :: explore steps scope

/-- `discoverScopePath`: the path up from the given scope to model root. -/
def discoverScopePath (leaf : P) : List P := T.explore (T.depth leaf + 1) leaf

end PlacementTree

/-! ## Frames -/

/-- A frame on the stack of focus paths (`ScopePath`). -/
structure ScopePath (P : Type u) where
  /-- The identity of the frame; frames created later have larger ones. -/
  id : ℕ
  /-- The number of handles referring to the frame. -/
  refcount_ : ℕ
  /-- The scopes from root to leaf. -/
  path_ : List P
  deriving DecidableEq, Repr

namespace ScopePath

variable {P : Type u} [DecidableEq P]

/-- `isValid`: the path consists of more than just the root element. -/
def isValid (path : ScopePath P) : Bool := 1 < path.path_.length

/-- `clear`: back to model root. -/
def clear (T : PlacementTree P) (path : ScopePath P) : ScopePath P := { path with path_ := [T.root] }

/-- `navigate`, for a target which is part of the model. -/
def navigate (T : PlacementTree P) (target : P) (path : ScopePath P) : ScopePath P :=
  { path with path_ := (T.discoverScopePath target).reverse }

/-- `intrusive_ptr_add_ref`. -/
def addRef (path : ScopePath P) : ScopePath P := { path with refcount_ := path.refcount_ + 1 }

/-- `intrusive_ptr_release`. -/
def release (path : ScopePath P) : ScopePath P :=
  if 0 < path.refcount_ then { path with refcount_ := path.refcount_ - 1 } else path

end ScopePath

/-! ## The stack of frames and the handles -/

/-- The stack of focus paths together with the live handles. -/
structure FocusState (ν : Type v) (P : Type u) where
  /-- The frames, beginning with the back of the stack. -/
  paths_ : List (ScopePath P)
  /-- The number of frames created so far. -/
  created : ℕ
  /-- The frame each live handle refers to (`focus_`). -/
  handles : AList fun _ : ν => ℕ

namespace FocusState

variable {ν : Type v} {P : Type u} [DecidableEq P] (T : PlacementTree P)

/-- Changes a single frame. -/
def onFrame (s : FocusState ν P) (f : ℕ) (change : ScopePath P → ScopePath P) : FocusState ν P :=
  { s with paths_ := s.paths_.map fun path => if path.id = f then change path else path }

/-- `openDefaultFrame`: a frame at model root in the empty stack. -/
def openDefaultFrame (s : FocusState ν P) : FocusState ν P :=
  { s with paths_ := [⟨s.created, 0, [T.root]⟩], created := s.created + 1 }

/-- The stack as it is created: with a default frame and without handles. -/
def initial : FocusState ν P := openDefaultFrame T ⟨[], 0, ∅⟩

/-- `ScopeLocator::pushPath`: a new frame at model root on top of the stack. -/
def pushPath (s : FocusState ν P) : FocusState ν P :=
  { s with
    paths_ := (ScopePath.navigate T T.root ⟨s.created, 0, [T.root]⟩) :: s.paths_
    created := s.created + 1 }

/-- The loop which discards frames no longer referred; at the bottom a new default frame is opened. -/
def discardUnused (s : FocusState ν P) : FocusState ν P :=
  match s.paths_.dropWhile fun path => path.refcount_ = 0 with
  | [] => openDefaultFrame T s
  | top :: below => { s with paths_ := top :: below }

/-- `pop_unused`: a base frame located at root is not evicted. -/
def popUnused (s : FocusState ν P) : FocusState ν P :=
  match s.paths_ with
  | [front] => if front.isValid then discardUnused T s else s
  | _ => discardUnused T s

/-- `top`: establishes the topmost frame actually in use, which is on top of the stack thereafter
(`ScopeLocator::currPath`). -/
def top (s : FocusState ν P) : FocusState ν P :=
  match s.paths_ with
  | [] => popUnused T s
  | back :: _ => if back.refcount_ = 0 then popUnused T s else s

variable [DecidableEq ν]

/-- A new handle is attached to a frame. -/
def attach (s : FocusState ν P) (h : ν) (f : ℕ) : FocusState ν P :=
  { s.onFrame f ScopePath.addRef with handles := s.handles.insert h f }

/-- A handle is detached from its frame, and ceases to be (or is a null pointer for a moment). -/
def detach (s : FocusState ν P) (h : ν) : FocusState ν P :=
  match s.handles.lookup h with
  | none => s
  | some f => { s.onFrame f ScopePath.release with handles := s.handles.erase h }

/-- A handle is assigned a frame: the new frame is referred before the old one is released. -/
def assign (s : FocusState ν P) (h : ν) (f : ℕ) : FocusState ν P :=
  match s.handles.lookup h with
  | none => s
  | some old =>
    { (s.onFrame f ScopePath.addRef).onFrame old ScopePath.release with handles := s.handles.insert h f }

/-- A handle is attached to the current focus. -/
def attachCurrent (s : FocusState ν P) (h : ν) : Option (FocusState ν P) :=
  (s.top T).paths_.head?.map fun back => (s.top T).attach h back.id

/-! ## Operations on handles -/

/-- The operations on `QueryFocus` handles. -/
inductive Action (ν : Type v) (P : Type u)
  /-- The default constructor. -/
  | create (h : ν)
  | copy (h : ν) (other : ν)
  | assign (h : ν) (other : ν)
  | destroy (h : ν)
  | shift (h : ν) (container : P)
  | reset (h : ν)
  | pop (h : ν)
  /-- `push ()`, yielding a new handle. -/
  | push (h : ν)
  /-- `push (otherContainer)`, yielding a new handle. -/
  | pushTo (h : ν) (otherContainer : P)
  deriving Repr

/-- `shift`: navigates the frame of the handle, or raises an exception. The flag says whether it is raised. -/
def shift (s : FocusState ν P) (h : ν) (container : P) : Option (FocusState ν P × Bool) :=
  if T.isValid container then
    (s.handles.lookup h).map fun f => (s.onFrame f (ScopePath.navigate T container), false)
  else some (s, true)

/-- A new frame is pushed, a new handle attached to it, and shifted; when this raises, the new
handle is destroyed. -/
def pushAndShift (s : FocusState ν P) (h : ν) (target : P) : Option (FocusState ν P × Bool) :=
  (s.pushPath T).paths_.head?.bind fun back =>
    (((s.pushPath T).attach h back.id).shift T h target).map fun (s', raised) =>
      (if raised then s'.detach h else s', raised)

/-- Performs an operation; without result when the handles are not as required, or when there is no
frame on the stack. -/
def perform (s : FocusState ν P) : Action ν P → Option (FocusState ν P × Bool)
  | .create h => if h ∈ s.handles then none else (s.attachCurrent T h).map (·, false)
  | .copy h other => if h ∈ s.handles then none else (s.handles.lookup other).map fun f =>
    (s.attach h f, false)
  | .assign h other => if h ∈ s.handles then (s.handles.lookup other).map fun f =>
    (s.assign h f, false) else none
  | .destroy h => if h ∈ s.handles then some (s.detach h, false) else none
  | .shift h container => if h ∈ s.handles then s.shift T h container else none
  | .reset h => (s.handles.lookup h).map fun f => (s.onFrame f (ScopePath.clear T), false)
  | .pop h => if h ∈ s.handles then ((s.detach h).attachCurrent T h).map (·, false) else none
  | .push h =>
    if h ∈ s.handles then none
    else (s.top T).paths_.head?.bind fun back =>
      back.path_.getLast?.bind fun leaf => (s.top T).pushAndShift T h leaf
  | .pushTo h otherContainer =>
    if h ∈ s.handles then none
    else if T.isValid otherContainer then s.pushAndShift T h otherContainer
    else some (s, true)

end FocusState

end Lumiera.Steam.MObject.Session
