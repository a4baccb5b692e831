import Mathlib.Data.List.AList
import Lumiera.Base.Machine

/-! # The index of the Placements in the session

The `PlacementIndex` keeps every Placement of the session in two hash tables. The main table
`placementTab_` maps an ID to the stored instance and to the Placement which acts as its scope;
the `scopeTab_` is the reverse association and tracks the contents of each scope as pairs
`(scopeID, elementID)`. The root element is its own scope and has no entry in the scope table.

Inserting stores a *copy*, and copying a Placement creates a new identity: the new ID is drawn by
the copy constructor and is therefore an argument here. An operation yields `none` when one of the
assertions of the implementation (`REQUIRE`, `ASSERT`, `ENSURE`, `NOTREACHED`) fails, and otherwise
the table it leaves behind together with its result or with the exception it raised. -/

namespace Lumiera.Steam.MObject.Session

universe u v

/-- A Placement: its hash-based identity, and all the rest of it. -/
structure PlacementMO (PID : Type u) (Obj : Type v) where
  getID : PID
  obj : Obj
  deriving DecidableEq, Repr

/-- The copy constructor: the same Placement with an identity of its own. -/
def PlacementMO.copy {PID : Type u} {Obj : Type v} (placement : PlacementMO PID Obj) (newID : PID) :
    PlacementMO PID Obj :=
  { placement with getID := newID }

/-- The exceptions raised by the index. -/
inductive IndexError
  /-- `LERR_(INVALID_SCOPE)` -/
  | invalidScope
  /-- `LERR_(NONEMPTY_SCOPE)` -/
  | nonemptyScope
  /-- `error::Fatal` -/
  | killRoot
  deriving DecidableEq, Repr

/-- The text of an exception. -/
def IndexError.what : IndexError → String
  | .invalidScope => "Specified a non-registered Placement as scope " ++
      "while adding another Placement to the index"
  | .nonemptyScope => "Unable to remove the specified Placement, " ++
      "because it defines an non-empty scope. " ++ "You need to delete any contents first."
  | .killRoot => "Request to kill the model root."

/-- A row of the main table: the stored instance and the scope it belongs to. -/
structure PlacementEntry (PID : Type u) (Obj : Type v) where
  element : PlacementMO PID Obj
  scope : PlacementMO PID Obj
  deriving DecidableEq, Repr

/-- `PlacementIndex::Table`, the storage backing the index. The `unordered_multimap` is the list of
its pairs in the (unspecified) order of its iteration. -/
structure Table (PID : Type u) (Obj : Type v) where
  placementTab_ : AList (fun _ : PID => PlacementEntry PID Obj)
  scopeTab_ : List (PID × PID)
  root_ : PlacementMO PID Obj

namespace Table

variable {PID : Type u} {Obj : Type v} [DecidableEq PID]

/-! ## Queries -/

/-- Number of rows in the main table; always at least 1 because of root. -/
def size (t : Table PID Obj) : Nat := t.placementTab_.entries.length

/-- Is there a Placement with this ID? -/
def contains (t : Table PID Obj) (id : PID) : Bool := (t.placementTab_.lookup id).isSome

/-- Is the ID registered as a scope with contents? -/
def containsScope (t : Table PID Obj) (id : PID) : Bool := t.scopeTab_.any (·.1 == id)

/-- The contents of a scope: the range of the scope table with that key. -/
def children (t : Table PID Obj) (scopeID : PID) : List PID :=
  (t.scopeTab_.filter (·.1 == scopeID)).map Prod.snd

/-- The root element, required to be registered. -/
def getRootElement (t : Table PID Obj) : Option (PlacementMO PID Obj) :=
  if t.contains t.root_.getID then some t.root_ else none

/-! ## Building and clearing -/

/-- Insert a specially configured root entry into the yet empty table; root is its own scope. -/
def setupRoot (t : Table PID Obj) (rootDef : PlacementMO PID Obj) (newID : PID) :
    Option (Table PID Obj) :=
  if t.size = 0 ∧ t.scopeTab_.length = 0 then
    let root := rootDef.copy newID
    some { t with root_ := root, placementTab_ := t.placementTab_.insert newID ⟨root, root⟩ }
  else
    none

/-- Purge both tables and set up the root anew, as a copy of the previous root. -/
def clear (t : Table PID Obj) (newRootID : PID) : Option (Table PID Obj) :=
  setupRoot { t with placementTab_ := ∅, scopeTab_ := [] } t.root_ newRootID

/-- Store a copy of the given Placement, together with the scope it belongs to. -/
def addEntry (t : Table PID Obj) (newObj : PlacementMO PID Obj) (scopeID newID : PID) :
    Option (Table PID Obj) :=
  match t.placementTab_.lookup scopeID with
  | none => none
  | some scopeEntry =>
    if t.contains newID then
      none
    else
      some { t with
        placementTab_ := t.placementTab_.insert newID ⟨newObj.copy newID, scopeEntry.element⟩
        scopeTab_ := t.scopeTab_ ++ [(scopeID, newID)] }

/-! ## Removal -/

/-- Take an entry off the main table, where it is required to be. -/
def removeBaseEntry (t : Table PID Obj) (key : PID) :
    Option (PlacementEntry PID Obj × Table PID Obj) :=
  (t.placementTab_.lookup key).map
    fun dataToRemove => (dataToRemove, { t with placementTab_ := t.placementTab_.erase key })

/-- Erase the first pair `(scopeID, entryID)`; to find none is `NOTREACHED`. -/
def removeFromScope (t : Table PID Obj) (scopeID entryID : PID) : Option (Table PID Obj) :=
  if (scopeID, entryID) ∈ t.scopeTab_ then
    some { t with scopeTab_ := t.scopeTab_.erase (scopeID, entryID) }
  else
    none

/-- Remove a single entry, unless it is a scope with contents. -/
def removeEntry (t : Table PID Obj) (id : PID) : Option (Except IndexError Bool × Table PID Obj) :=
  if ¬ t.contains id then
    if t.containsScope id then none else some (.ok false, t)
  else if t.containsScope id then
    some (.error .nonemptyScope, t)
  else
    match t.removeBaseEntry id with
    | none => none
    | some (toRemove, t') =>
      match t'.removeFromScope toRemove.scope.getID id with
      | none => none
      | some t'' => if t''.containsScope id ∨ t''.contains id then none else some (.ok true, t'')

/-- The loop over the snapshot of the children: empty each one with `removeContents` and discard its
storage. -/
def discardEach (removeContents : Table PID Obj → PID → Option (Table PID Obj)) :
    Table PID Obj → List PID → Option (Table PID Obj)
  | t, [] => some t
  | t, child :: rest =>
    match removeContents t child with
    | none => none
    | some emptied =>
      match emptied.removeBaseEntry child with
      | none => none
      | some (_, t') =>
        if t'.containsScope child ∨ t'.contains child then none
        else discardEach removeContents t' rest

/-- Recursively remove the contents of a scope. The pairs of this scope are erased *before* the
loop over the children. -/
def removeAllFromScope : Nat → Table PID Obj → PID → Option (Table PID Obj)
  | 0, _, _ => none
  | fuel + 1, t, scopeID =>
    let child := t.children scopeID
    let erased := { t with scopeTab_ := t.scopeTab_.filter (·.1 != scopeID) }
    discardEach (removeAllFromScope fuel) erased child

/-- Remove the contents of a scope, then the scope itself. The recursion into the children has
erased at least one pair, which bounds its depth by the length of the scope table. -/
def removeAll (t : Table PID Obj) (scopeID : PID) :
    Option (Except IndexError Bool × Table PID Obj) :=
  match removeAllFromScope (t.scopeTab_.length + 1) t scopeID with
  | none => none
  | some emptied =>
    match emptied.removeEntry scopeID with
    | none => none
    | some (.error raised, t') => some (.error raised, t')
    | some (.ok removed, t') =>
      if t'.containsScope scopeID ∨ t'.contains scopeID then none else some (.ok removed, t')

/-! ## Self-check -/

/-- The row stored under an ID satisfies the checks (1.1) to (1.8). -/
def checkEntry (t : Table PID Obj) (id : PID) : Bool :=
  match t.placementTab_.lookup id with
  | none => false
  | some entry =>
    id == entry.element.getID && t.contains entry.scope.getID &&
      ((entry.scope.getID == id && entry.element.getID == t.root_.getID) ||
        (t.children entry.scope.getID).any (· == id))

/-- Follow the links from a scope to its enclosing scope until reaching a scope which is its own
scope. -/
def outermostScope (t : Table PID Obj) : Nat → PlacementMO PID Obj → Option (PlacementMO PID Obj)
  | 0, _ => none
  | steps + 1, scope =>
    match t.placementTab_.lookup scope.getID with
    | none => none
    | some entry =>
      if entry.scope.getID = scope.getID then some scope else t.outermostScope steps entry.scope

/-- Checks (2.5) to (2.8): the member is known and belongs to this scope in the main table too. -/
def checkScopeEntry (t : Table PID Obj) (scope entry : PID) : Bool :=
  match t.placementTab_.lookup entry with
  | none => false
  | some row => row.scope.getID == scope

/-- Checks (2.1) to (2.4): the scope is known and attached below root; then check its members. -/
def checkScope (t : Table PID Obj) (id : PID) : Bool :=
  match t.placementTab_.lookup id with
  | none => false
  | some entry =>
    match t.outermostScope t.size entry.scope with
    | none => false
    | some scope =>
      scope.getID == t.root_.getID && (t.children id).all (t.checkScopeEntry id)

/-- The validator: check every entry, every scope, and the number of entries. -/
def isValid (t : Table PID Obj) : Bool :=
  t.placementTab_.keys.all t.checkEntry &&
    (t.scopeTab_.map Prod.fst).all t.checkScope &&
    (0 < t.size && t.size == t.scopeTab_.length + 1)

end Table

/-! ## The operations of the index -/

namespace PlacementIndex

variable {PID : Type u} {Obj : Type v} [DecidableEq PID]

/-- The index built around the given root definition. -/
def construct (rootDef : PlacementMO PID Obj) (rootID : PID) : Option (Table PID Obj) :=
  Table.setupRoot ⟨∅, [], rootDef⟩ rootDef rootID

/-- Number of elements in the index; root is not counted. -/
def size (t : Table PID Obj) : Nat := t.size - 1

/-- Add a new Placement into the given scope, which has to be registered. -/
def insert (t : Table PID Obj) (newObj : PlacementMO PID Obj) (targetScope newID : PID) :
    Option (Except IndexError PID × Table PID Obj) :=
  if ¬ t.contains targetScope then
    some (.error .invalidScope, t)
  else
    (t.addEntry newObj targetScope newID).map fun t' => (.ok newID, t')

/-- Remove a Placement; to remove the root, or a scope with contents, is refused. -/
def remove (t : Table PID Obj) (id : PID) : Option (Except IndexError Bool × Table PID Obj) :=
  match t.getRootElement with
  | none => none
  | some root => if id = root.getID then some (.error .killRoot, t) else t.removeEntry id

/-- Recursively kill a complete scope; as an exception, root itself is retained. -/
def clearScope (t : Table PID Obj) (targetScope newRootID : PID) :
    Option (Except IndexError Unit × Table PID Obj) :=
  match t.getRootElement with
  | none => none
  | some root =>
    let result :=
      if targetScope = root.getID then
        (t.clear newRootID).map fun t' => (Except.ok (), t')
      else
        (t.removeAll targetScope).map fun r => (r.1.map fun _ => (), r.2)
    match result with
    | none => none
    | some (.error raised, t') => some (.error raised, t')
    | some (.ok _, t') => if t'.isValid then some (.ok (), t') else none

/-- Purge the whole index. -/
def clear (t : Table PID Obj) (newRootID : PID) : Option (Table PID Obj) := t.clear newRootID

/-- The calls a client of the index makes, each with the ID drawn by a copy made in the course of
it; and the hash table may come to iterate over its pairs in another order. -/
inductive Call (PID : Type u) (Obj : Type v)
  | insert (newObj : PlacementMO PID Obj) (targetScope newID : PID)
  | remove (id : PID)
  | clearScope (targetScope newRootID : PID)
  | clear (newRootID : PID)
  | rehash (scopeTab : List (PID × PID))

/-- The table left behind by a call, whether it returned or raised. -/
def perform (t : Table PID Obj) : Call PID Obj → Option (Table PID Obj)
  | .insert newObj targetScope newID => (insert t newObj targetScope newID).map Prod.snd
  | .remove id => (remove t id).map Prod.snd
  | .clearScope targetScope newRootID => (clearScope t targetScope newRootID).map Prod.snd
  | .clear newRootID => clear t newRootID
  | .rehash scopeTab =>
    if scopeTab.Perm t.scopeTab_ then some { t with scopeTab_ := scopeTab } else none

/-- The runs of an index: from its construction by any sequence of calls. -/
def machine (PID : Type u) (Obj : Type v) [DecidableEq PID] :
    Machine (Table PID Obj) (Call PID Obj) where
  init t := ∃ rootDef rootID, construct rootDef rootID = some t
  step t call t' := perform t call = some t'

end PlacementIndex

end Lumiera.Steam.MObject.Session
