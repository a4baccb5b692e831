import Lumiera.Lib.Diff.ListDiffApplication
import Lumiera.Lib.Diff.GenNode

/-! # Tree mutators (`lib/diff/tree-mutator.hpp`, `lib/diff/tree-mutator-collection-binding.hpp`)

A `TreeMutator` is assembled from **onion layers**: each layer handles the operations it is
responsible for and delegates the others to the layer below. The layers treated here are the
binding of a collection (`ChildCollectionMutator`) and the decorator for the object type of a
record (`ObjectTypeHandler`). The closures tied into a collection binding are arbitrary; since a
nested mutator is built from bindings again, layers refer to their binding by a name from `β`,
and a table `β → CollectionBinding β Elm` tells what is behind the names. -/

namespace Lumiera.Lib.Diff

/-! ## Errors -/

/-- The errors raised while applying a tree diff, with the data shown in their messages. -/
inductive TreeDiffError
  /-- `__failMismatch`. -/
  | mismatch (oper : String) (spec : GenNode)
  /-- `__expect_further_elements`. -/
  | prematureEnd (elm : GenNode)
  /-- `__fail_not_found`. -/
  | notFound (elm : GenNode)
  /-- `__expect_end_of_scope`. -/
  | extraElements (idi : ID)
  /-- `__expect_valid_parent_scope`. -/
  | unbalanced (idi : ID)
  /-- `completeDiffApplication` with pending content. -/
  | unsettled
  /-- An exception out of one of the closures of a binding. -/
  | failure
  deriving Inhabited

namespace TreeDiffError

/-- The message of the exception, for nodes rendered by `render` and the top level by `subject`. -/
def message (render : GenNode → String) (subject : String) : TreeDiffError → String
  | mismatch oper spec =>
    "Unable to " ++ oper ++ " element " ++ render spec
      ++ ". Current shape of target data does not match expectations"
  | prematureEnd elm =>
    "Premature end of target sequence, still expecting element " ++ render elm
      ++ "; unable to apply diff further."
  | notFound elm =>
    "Premature end of sequence; unable to locate element " ++ render elm
      ++ " in the remainder of the target."
  | extraElements idi =>
    "Diff application floundered in nested scope " ++ idi.sym
      ++ "; unexpected extra elements found when diff should have settled everything."
  | unbalanced idi =>
    "Diff application floundered after leaving scope " ++ idi.sym
      ++ "; unbalanced nested scopes, diff attempts to pop root."
  | unsettled => "Unsettled content remains after diff application. Top level == " ++ subject
  | failure => ""

end TreeDiffError

/-! ## The content of a bound collection -/

/-- A bound collection while a diff is applied to it: the content built up, the old content
swapped aside, and the position in the latter. -/
structure Content (Elm : Type) where
  /-- The target (`collection`). -/
  collection : List Elm
  /-- The old content (`contentBuffer`); moved-from elements stay in place. -/
  contentBuffer : List Elm
  /-- The next element of the old content (`pos_`). -/
  pos : Nat
  deriving DecidableEq, Repr

/-- How elements are placed in the container (`ContainerTraits`). -/
structure ContainerTraits (Elm : Type) where
  /-- `append`: the position where the container puts a further element, `none` when it does not
  take it up. -/
  insertPos : List Elm → Elm → Option Nat
  /-- `recentElmRawIter`: the element expected to be the most recently added one. -/
  recentElm : List Elm → Option Nat

/-- A vector appends at the back, and its last element is the most recent one. -/
def ContainerTraits.vector {Elm : Type} : ContainerTraits Elm where
  insertPos xs _ := some xs.length
  recentElm xs := if xs.isEmpty then none else some (xs.length - 1)

namespace Content

variable {Elm : Type}

/-- A collection not yet taken over for mutation. -/
def ofCollection (xs : List Elm) : Content Elm := ⟨xs, [], 0⟩

/-- `initMutation`: swap the content aside and start at its first element. -/
def initMutation (c : Content Elm) : Content Elm := ⟨[], c.collection, 0⟩

/-- `*pos_`, when there is a further element. -/
def current (c : Content Elm) : Option Elm := c.contentBuffer[c.pos]?

/-- `inject`: hand a further element to the container. -/
def inject (T : ContainerTraits Elm) (c : Content Elm) (e : Elm) : Content Elm :=
  { c with collection :=
      match T.insertPos c.collection e with
      | some k => c.collection.insertIdx k e
      | none => c.collection }

/-- `inject (move(*it))` for the slot `i` holding `e`: the slot is left with what remains of a
moved-from element. -/
def moveIn (T : ContainerTraits Elm) (movedFrom : Elm → Elm) (c : Content Elm) (i : Nat) (e : Elm) :
    Content Elm :=
  { c.inject T e with contentBuffer := c.contentBuffer.set i (movedFrom e) }

/-- `++pos_`. -/
def advance (c : Content Elm) : Content Elm := { c with pos := c.pos + 1 }

/-- The loops of `accept_until`: accept elements until one meets `stop`; `n` bounds the number of
passes by the elements pending. -/
def acceptWhileNot (T : ContainerTraits Elm) (movedFrom : Elm → Elm) (stop : Elm → Bool) :
    Nat → Content Elm → Content Elm
  | 0, c => c
  | n + 1, c =>
    match c.current with
    | none => c
    | some e =>
      if stop e then c
      else acceptWhileNot T movedFrom stop n (c.moveIn T movedFrom c.pos e).advance

/-- The number of elements pending. -/
def pending (c : Content Elm) : Nat := c.contentBuffer.length - c.pos

/-- `search`: the first element meeting `p`, beginning at `start`. -/
def search (p : Elm → Bool) (xs : List Elm) (start : Nat) : Option Nat :=
  ((xs.drop start).findIdx? p).map (· + start)

/-- `locate`: the recently added element if it meets `p`, else a search over the collection. -/
def locate (T : ContainerTraits Elm) (p : Elm → Bool) (c : Content Elm) : Option Nat :=
  match T.recentElm c.collection with
  | some k =>
    if (c.collection[k]?).any p then some k
    else search p c.collection 0
  | none => search p c.collection 0

end Content

/-! ## Layers -/

/-- The layers of a mutator, outermost first. -/
inductive TreeMutator (β : Type) (Elm : Type)
  /-- The base implementation (`TreeMutator`). -/
  | base
  /-- `ChildCollectionMutator<PAR,BIN>`. -/
  | childCollection (binding : β) (content : Content Elm) (par : TreeMutator β Elm)
  /-- `ObjectTypeHandler<PAR>` over a record with the given type ID. -/
  | objectTypeHandler (typeID : String) (par : TreeMutator β Elm)

/-- The closures tied into a collection binding (`CollectionBinding`). -/
structure CollectionBinding (β : Type) (Elm : Type) where
  /-- `Trait`: the kind of container. -/
  trait : ContainerTraits Elm
  /-- `matches`: whether an element is the one a spec talks about. -/
  matchElement : GenNode → Elm → Bool
  /-- `construct`: build a new element from a spec. -/
  construct : GenNode → Except TreeDiffError Elm
  /-- `isApplicable`: whether this layer is responsible for a spec. -/
  isApplicable : GenNode → Except TreeDiffError Bool
  /-- `assign`: set the value of an element, or refuse to. -/
  assign : Elm → GenNode → Except TreeDiffError (Option Elm)
  /-- `openSub`: build a mutator for the inside of an element, or refuse to. -/
  openSub : Elm → ID → Except TreeDiffError (Option (TreeMutator β Elm))
  /-- The element with the content of its nested scope as left by a mutator, which works on the
  element in place. -/
  writeBack : Elm → TreeMutator β Elm → Elm
  /-- What remains of an element after moving from it. -/
  movedFrom : Elm → Elm

/-! ## The operation API -/

namespace TreeMutator

variable {β : Type} {Elm : Type} (B : β → CollectionBinding β Elm) (H : RefHash)

/-- `init`. -/
def init : TreeMutator β Elm → TreeMutator β Elm
  | base => base
  | childCollection b c par => childCollection b c.initMutation par.init
  | objectTypeHandler t par => objectTypeHandler t par.init

/-- `hasSrc`: some layer has a further element. -/
def hasSrc : TreeMutator β Elm → Bool
  | base => false
  | childCollection _ c par => c.current.isSome || par.hasSrc
  | objectTypeHandler _ par => par.hasSrc

/-- `completeScope`: no layer has a further element. -/
def completeScope : TreeMutator β Elm → Bool
  | base => true
  | childCollection _ c par => par.completeScope && c.current.isNone
  | objectTypeHandler _ par => par.completeScope

/-- The type given by a spec (`setType (spec.data.get<string>())`). -/
def typeOfSpec (spec : GenNode) : Except TreeDiffError String :=
  match spec.data with
  | .text s => .ok s
  | _ => .error .failure

/-- `injectNew`; the result `none` stands for `false`, as for all operations below. -/
def injectNew (n : GenNode) : TreeMutator β Elm → Except TreeDiffError (Option (TreeMutator β Elm))
  | base => .ok none
  | childCollection b c par => do
      if ← (B b).isApplicable n then
        let e ← (B b).construct n
        return some (childCollection b (c.inject (B b).trait e) par)
      else
        return (← par.injectNew n).map (childCollection b c)
  | objectTypeHandler t par => do
      if n.isNamed && n.isTypeID then
        return some (objectTypeHandler (← typeOfSpec n) par)
      else
        return (← par.injectNew n).map (objectTypeHandler t)

/-- `matchSrc`. -/
def matchSrc (spec : GenNode) : TreeMutator β Elm → Except TreeDiffError Bool
  | base => .ok false
  | childCollection b c par => do
      if ← (B b).isApplicable spec then
        return c.current.any ((B b).matchElement spec)
      else
        par.matchSrc spec
  | objectTypeHandler _ par => par.matchSrc spec

/-- `skipSrc`: the spec is used to find the layer responsible, not compared. -/
def skipSrc (n : GenNode) : TreeMutator β Elm → Except TreeDiffError (TreeMutator β Elm)
  | base => .ok base
  | childCollection b c par => do
      if ← (B b).isApplicable n then
        return childCollection b (if c.current.isSome then c.advance else c) par
      else
        return childCollection b c (← par.skipSrc n)
  | objectTypeHandler t par => do
      return objectTypeHandler t (← par.skipSrc n)

/-- `acceptSrc`. -/
def acceptSrc (n : GenNode) : TreeMutator β Elm → Except TreeDiffError (Option (TreeMutator β Elm))
  | base => .ok none
  | childCollection b c par => do
      if ← (B b).isApplicable n then
        match c.current with
        | some e =>
          if (B b).matchElement n e then
            return some (childCollection b
              (c.moveIn (B b).trait (B b).movedFrom c.pos e).advance par)
          else
            return none
        | none => return none
      else
        return (← par.acceptSrc n).map (childCollection b c)
  | objectTypeHandler t par => do
      return (← par.acceptSrc n).map (objectTypeHandler t)

/-- `findSrc`: the element found is moved over, the position stays. -/
def findSrc (refSpec : GenNode) :
    TreeMutator β Elm → Except TreeDiffError (Option (TreeMutator β Elm))
  | base => .ok none
  | childCollection b c par => do
      if ← (B b).isApplicable refSpec then
        match Content.search ((B b).matchElement refSpec) c.contentBuffer c.pos with
        | some i =>
          match c.contentBuffer[i]? with
          | some e =>
            return some (childCollection b
              (c.moveIn (B b).trait (B b).movedFrom i e) par)
          | none => return none
        | none => return none
      else
        return (← par.findSrc refSpec).map (childCollection b c)
  | objectTypeHandler t par => do
      return (← par.findSrc refSpec).map (objectTypeHandler t)

/-- Whether `accept_until` takes all elements of a layer: for the marker `END`, and for the marker
`ATTRIBS` where the layer is responsible for it. -/
def acceptsAll (binding : CollectionBinding β Elm) (spec : GenNode) : Except TreeDiffError Bool :=
  if spec.matchNode H.refEND then .ok true
  else if spec.matchNode H.refATTRIBS then binding.isApplicable H.refATTRIBS
  else .ok false

/-- `accept_until`. -/
def acceptUntil (spec : GenNode) :
    TreeMutator β Elm → Except TreeDiffError (Option (TreeMutator β Elm))
  | base =>
    .ok (if H.refEND.equalsMarker spec || H.refATTRIBS.equalsMarker spec then some base else none)
  | childCollection b c par => do
      if ← acceptsAll H (B b) spec then
        let c' := c.acceptWhileNot (B b).trait (B b).movedFrom (fun _ => false) c.pending
        return (← par.acceptUntil spec).map (childCollection b c')
      else if ← (B b).isApplicable spec then
        let c' := c.acceptWhileNot (B b).trait (B b).movedFrom ((B b).matchElement spec) c.pending
        match c'.current with
        | some e =>
          if (B b).matchElement spec e then
            return some (childCollection b
              (c'.moveIn (B b).trait (B b).movedFrom c'.pos e).advance par)
          else
            return none
        | none => return none
      else
        return (← par.acceptUntil spec).map (childCollection b c)
  | objectTypeHandler t par => do
      return (← par.acceptUntil spec).map (objectTypeHandler t)

/-- `assignElm`. -/
def assignElm (spec : GenNode) :
    TreeMutator β Elm → Except TreeDiffError (Option (TreeMutator β Elm))
  | base => .ok none
  | childCollection b c par => do
      if ← (B b).isApplicable spec then
        match c.locate (B b).trait ((B b).matchElement spec) with
        | some i =>
          match c.collection[i]? with
          | some e =>
            return (← (B b).assign e spec).map fun e' =>
              childCollection b { c with collection := c.collection.set i e' } par
          | none => return none
        | none => return none
      else
        return (← par.assignElm spec).map (childCollection b c)
  | objectTypeHandler t par => do
      if spec.isNamed && spec.isTypeID then
        return some (objectTypeHandler (← typeOfSpec spec) par)
      else
        return (← par.assignElm spec).map (objectTypeHandler t)

/-- The place of an element a nested scope was opened on: the layer, counted from outside, and
the index within its collection. -/
structure Locus where
  layer : Nat
  elm : Nat
  deriving DecidableEq, Repr

/-- The same place seen from one layer further out. -/
def Locus.outward (l : Locus) : Locus := { l with layer := l.layer + 1 }

/-- `mutateChild`: locate the element and build a mutator for its inside. -/
def mutateChild (spec : GenNode) :
    TreeMutator β Elm → Except TreeDiffError (Option (Locus × TreeMutator β Elm))
  | base => .ok none
  | childCollection b c par => do
      if ← (B b).isApplicable spec then
        match c.locate (B b).trait ((B b).matchElement spec) with
        | some i =>
          match c.collection[i]? with
          | some e => return (← (B b).openSub e spec.idi).map (Prod.mk ⟨0, i⟩)
          | none => return none
        | none => return none
      else
        return (← par.mutateChild spec).map fun r => (r.1.outward, r.2)
  | objectTypeHandler _ par => do
      return (← par.mutateChild spec).map fun r => (r.1.outward, r.2)

/-- The mutator after its nested scope at `(layer, elm)` was changed in place by `sub`. -/
def writeBack (sub : TreeMutator β Elm) (elm : Nat) : Nat → TreeMutator β Elm → TreeMutator β Elm
  | _, base => base
  | 0, childCollection b c par =>
    childCollection b
      { c with collection := c.collection.modify elm fun e => (B b).writeBack e sub } par
  | 0, objectTypeHandler t par => objectTypeHandler t par
  | k + 1, childCollection b c par => childCollection b c (writeBack sub elm k par)
  | k + 1, objectTypeHandler t par => objectTypeHandler t (writeBack sub elm k par)

end TreeMutator

/-! ## The tree diff language and its application

The verbs of the tree diff language (`lib/diff/tree-diff.hpp`) are mapped onto the operations of
the current tree mutator (`lib/diff/tree-diff.cpp`); `mut` and `emu` enter and leave nested scopes,
for which a stack of mutators is kept (`lib/diff/tree-diff-application.hpp`). A nested mutator
works on an element of its parent scope in place. No verb touches the parent while the nested scope
is open, so here the change shows in the parent when the nested scope is left. -/

/-! ## The language (`TreeDiffLanguage`) -/

/-- One step of a tree diff: a verb with the node it talks about. -/
inductive TreeDiffStep
  /-- Insert a new element at the current position. -/
  | ins (n : GenNode)
  /-- Remove the next element. -/
  | del (n : GenNode)
  /-- Accept the next element. -/
  | pick (n : GenNode)
  /-- Fetch an element from further down. -/
  | find (n : GenNode)
  /-- Pass the place of an element fetched earlier. -/
  | skip (n : GenNode)
  /-- Accept all elements up to and including the given one. -/
  | after (n : GenNode)
  /-- Assign a value to an element accepted already. -/
  | set (n : GenNode)
  /-- Open the nested scope of an element accepted already. -/
  | mut (n : GenNode)
  /-- Leave a nested scope. -/
  | emu (n : GenNode)

/-! ## Verbs as operations of the mutator -/

/-- The scopes opened by a diff (`StackScopeManager`): the current one and those around it, each
with the place of the element the scope within was opened on. -/
structure TreeDiffScopes (β Elm : Type) where
  /-- `treeMutator_`, the top of the stack. -/
  current : TreeMutator β Elm
  /-- The remainder of the stack. -/
  outer : List (TreeMutator β Elm × TreeMutator.Locus)

namespace TreeDiffScopes

variable {β Elm : Type} (B : β → CollectionBinding β Elm) (H : RefHash)

/-- Raises `err` when an operation reported `false`. -/
def orFail {α : Type} (err : TreeDiffError) : Option α → Except TreeDiffError α
  | some a => .ok a
  | none => .error err

/-- The verbs which stay within the current scope; `mut` and `emu` are treated by `step`. -/
def applyTo (m : TreeMutator β Elm) : TreeDiffStep → Except TreeDiffError (TreeMutator β Elm)
  | .ins n => do orFail (.mismatch "insert" n) (← m.injectNew B n)
  | .del n => do
      if m.hasSrc then
        if ← m.matchSrc B n then m.skipSrc B n
        else throw (.mismatch "remove" n)
      else throw (.prematureEnd n)
  | .pick n => do orFail (.mismatch "pick" n) (← m.acceptSrc B n)
  | .find n => do
      if m.hasSrc then orFail (.notFound n) (← m.findSrc B n)
      else throw (.prematureEnd n)
  | .skip n =>
    if m.hasSrc then m.skipSrc B n
    else throw (.prematureEnd n)
  | .after n => do orFail (.notFound n) (← m.acceptUntil B H n)
  | .set n => do orFail (.mismatch "assign" n) (← m.assignElm B n)
  | .mut _ => .ok m
  | .emu _ => .ok m

/-- Applies one step of the diff (`DiffStep::applyTo`). -/
def step (s : TreeDiffScopes β Elm) : TreeDiffStep → Except TreeDiffError (TreeDiffScopes β Elm)
  | .mut n => do
      let r ← orFail (.mismatch "enter nested scope" n) (← s.current.mutateChild B n)
      return ⟨r.2, (s.current, r.1) :: s.outer⟩
  | .emu n =>
    if s.current.completeScope then
      match s.outer with
      | (par, locus) :: outer => .ok ⟨.writeBack B s.current locus.elm locus.layer par, outer⟩
      -- `closeScope` is only ever asked to return to a parent
      | [] => .error (.unbalanced n.idi)
    else .error (.extraElements n.idi)
  | v => do return { s with current := ← applyTo B H s.current v }

/-- The steps of a diff, one after the other. -/
def steps (s : TreeDiffScopes β Elm) (diff : List TreeDiffStep) :
    Except TreeDiffError (TreeDiffScopes β Elm) :=
  diff.foldlM (step B H) s

/-- `initDiffApplication`: the root scope, with the content of the target swapped aside. -/
def initDiffApplication (target : TreeMutator β Elm) : TreeDiffScopes β Elm := ⟨target.init, []⟩

/-- The target as changed in place by all scopes still open. -/
def target (s : TreeDiffScopes β Elm) : TreeMutator β Elm :=
  s.outer.foldl (fun sub p => .writeBack B sub p.2.elm p.2.layer p.1) s.current

/-- `completeDiffApplication`: verifies the current scope and drops all mutators. -/
def completeDiffApplication (s : TreeDiffScopes β Elm) : Except TreeDiffError (TreeMutator β Elm) :=
  if s.current.completeScope then .ok (s.target B) else .error .unsettled

/-- `DiffApplicator::consume`. -/
def consume (target : TreeMutator β Elm) (diff : List TreeDiffStep) :
    Except TreeDiffError (TreeMutator β Elm) := do
  completeDiffApplication B (← steps B H (initDiffApplication target) diff)

end TreeDiffScopes

/-! ## Binding to a `GenNode` record (`lib/diff/tree-mutator-gen-node-binding.hpp`) -/

/-- The two collections of a record. -/
inductive RecordScope
  | attribs
  | children
  deriving DecidableEq, Repr

namespace Record

/-- `Builder::attach (Rec::Mutator&)`: children below, attributes on top of these, and the handler
for the type attribute outermost. -/
def buildMutator (r : Record) : TreeMutator RecordScope GenNode :=
  .objectTypeHandler r.type
    (.childCollection .attribs (.ofCollection r.attribs)
      (.childCollection .children (.ofCollection r.children) .base))

/-- The record a mutator is working on, as it is now. -/
def ofMutator : TreeMutator RecordScope GenNode → Record
  | .objectTypeHandler t (.childCollection _ a (.childCollection _ c _)) =>
    .mk t a.collection c.collection
  | _ => .mk "NIL" [] []

end Record

/-- `_DefaultBinding<GenNode>::attachTo`, with the selector of the respective collection. What is
left of a node after moving from it is given by `husk`. -/
def genNodeBinding (H : RefHash) (husk : GenNode → GenNode) (scope : RecordScope) :
    CollectionBinding RecordScope GenNode where
  trait := .vector
  matchElement spec elm := spec.matchNode elm
  construct spec := .ok spec
  isApplicable spec :=
    match scope with
    | .attribs => .ok spec.isNamed
    -- `ignore_selector`: everything but the marker `ATTRIBS`
    | .children => ((spec.specEqualsMarker H.refATTRIBS).map (!·)).elim (.error .failure) .ok
  assign target spec := (target.data.assign spec.data).elim (.error .failure)
    fun data => .ok (some (.mk target.idi data))
  openSub target subID :=
    if target.idi.sameID subID then
      .ok (target.data.maybeAccessNestedRec.map fun r => r.buildMutator.init)
    else .ok none
  writeBack target sub := .mk target.idi (target.data.setNestedRec (.ofMutator sub))
  movedFrom := husk

namespace Record

/-- `DiffApplicator<Rec::Mutator>::consume`. -/
def applyDiff (H : RefHash) (husk : GenNode → GenNode) (r : Record) (diff : List TreeDiffStep) :
    Except TreeDiffError Record :=
  (TreeDiffScopes.consume (genNodeBinding H husk) H r.buildMutator diff).map ofMutator

end Record

end Lumiera.Lib.Diff
