import Lumiera.Base.Machine
import Lumiera.Base.StorageHistory

/-! # Metadata of working buffers (`steam/engine/buffer-metadata.hpp`)

The metadata table holds an `Entry` for each type of buffer and for each concrete buffer of such a type, under
a key which is a chained hash: each type key adds a distinguishing property to the key of its parent, and the
key of a concrete buffer adds the address. Hash values are taken as free of collisions, so a `HashVal` is the
chain itself.

An entry for a concrete buffer runs through a state machine; when it gets locked, a constructor function bound
to the type is invoked on the buffer, and the corresponding destructor function when it becomes free. Whether a
constructor raises, when it is invoked, is up to the environment. -/

namespace Lumiera.Steam.Engine

/-- The address of a buffer; pointers which may be NULL are optional addresses. -/
abbrev Buff := Nat

/-- Buffer states. -/
inductive BufferState where
  /-- abstract entry, not yet allocated -/
  | NIL
  /-- allocated buffer, no longer in use -/
  | FREE
  /-- allocated buffer actively in use -/
  | LOCKED
  /-- allocated buffer, returned from client -/
  | EMITTED
  /-- allocated buffer blocked by protocol failure -/
  | BLOCKED
  deriving DecidableEq, Repr

/-- A pair of functors to maintain an object within a buffer; handlers are compared by identity. -/
structure TypeHandler where
  identity : Nat
  isValid : Bool
  deriving DecidableEq, Repr

/-- Marker for the default case: raw buffer without type handling. -/
def TypeHandler.RAW : TypeHandler := ⟨0, false⟩

/-- All invalid handlers count as equal. -/
def TypeHandler.equal (left right : TypeHandler) : Bool :=
  (!left.isValid && !right.isValid) || left.identity == right.identity

/-- An opaque mark used by the implementation of a buffer provider. -/
abbrev LocalTag := BitVec 64

/-- Marker when no distinct local key is given. -/
def LocalTag.UNKNOWN : LocalTag := 0

/-- There is some handling defined. -/
def nontrivial (toVerify : TypeHandler) : Bool := !TypeHandler.RAW.equal toVerify

/-- There is a local tag defined. -/
def nontrivialTag (toVerify : LocalTag) : Bool := LocalTag.UNKNOWN != toVerify

/-- A hash value, built by chaining further values to the identity of a family of buffer types. -/
inductive HashVal where
  | family (familyID : Nat)
  | storageSize (accumulatedHash : HashVal) (size : Nat)
  | instanceFunc (accumulatedHash : HashVal) (identity : Nat)
  | localTag (accumulatedHash : HashVal) (tag : LocalTag)
  | buffer (accumulatedHash : HashVal) (address : Buff)
  deriving DecidableEq, Repr

/-- The error of an exception raised. -/
inductive BufferError where
  /-- Implementation defined local key should not be overridden. -/
  | overriddenTag
  /-- Buffer metadata entry with state==NIL encountered. -/
  | nilState
  /-- Invalid buffer state transition. -/
  | invalidTransition
  /-- Buffer already in use. -/
  | alreadyInUse
  /-- Need concrete buffer for any further operations. -/
  | bufferRequired
  /-- Attempt to lock a slot for a NULL buffer. -/
  | nullBuffer
  /-- Attempt to lock for a NULL buffer. Allocation floundered? -/
  | allocationFloundered
  /-- Attempt to lock a slot for a new buffer, while actually the old buffer is still locked. -/
  | oldBufferLocked
  /-- Attempt to re-lock a buffer still in use. -/
  | stillInUse
  /-- Attempt to access an unknown buffer metadata entry. -/
  | unknownEntry
  /-- Attempt to release a buffer still in use. -/
  | releaseInUse
  /-- raised by a constructor function -/
  | constructor
  deriving DecidableEq, Repr

/-! ## Keys -/

/-- Description of a buffer type. -/
structure Key where
  parent_ : HashVal
  hashID_ : HashVal
  storageSize_ : Nat
  instanceFunc_ : TypeHandler
  specifics_ : LocalTag
  deriving DecidableEq, Repr

namespace Key

/-- A basic key, describing a kind of buffer. -/
def basic (familyID : HashVal) (storageSize : Nat) : Key where
  parent_ := familyID
  hashID_ := .storageSize familyID storageSize
  storageSize_ := storageSize
  instanceFunc_ := .RAW
  specifics_ := .UNKNOWN

/-- A derived type using different constructor and destructor functions. -/
def withHandler (parent : Key) (differing : TypeHandler) : Key where
  parent_ := parent.hashID_
  hashID_ := .instanceFunc parent.hashID_ differing.identity
  storageSize_ := parent.storageSize_
  instanceFunc_ := differing
  specifics_ := parent.specifics_

/-- A derived type using a different private tag. -/
def withTag (parent : Key) (anotherTag : LocalTag) : Key where
  parent_ := parent.hashID_
  hashID_ := .localTag parent.hashID_ anotherTag
  storageSize_ := parent.storageSize_
  instanceFunc_ := parent.instanceFunc_
  specifics_ := anotherTag

/-- **The key of a concrete buffer**; for a NULL buffer it is a copy of the parent, up to the tag. -/
def forEntry (parent : Key) (bufferAddr : Option Buff) (localTag : LocalTag) :
    Except BufferError Key :=
  if nontrivialTag localTag && nontrivialTag parent.specifics_ then
    .error .overriddenTag
  else
    let newKey :=
      if nontrivialTag localTag then
        { parent with
          parent_ := parent.hashID_
          hashID_ := .localTag parent.hashID_ localTag
          specifics_ := localTag }
      else
        parent
    match bufferAddr with
    | some address =>
      .ok { newKey with parent_ := parent.hashID_, hashID_ := .buffer newKey.hashID_ address }
    | none => .ok newKey

end Key

/-! ## Entries -/

/-- A metadata entry: a key together with the state and the pointer to a concrete buffer. -/
structure Entry extends Key where
  state_ : BufferState
  buffer_ : Option Buff
  deriving DecidableEq, Repr

/-- The outcome of an operation on an entry: the entry thereafter, what was done with the buffer, and the
exception raised, if any. -/
structure Outcome where
  entry : Entry
  events : List (StorageEvent Buff)
  raised : Option BufferError

namespace Entry

/-- A new entry is in use when it has a buffer. -/
def create (key : Key) (bufferPtr : Option Buff) : Entry where
  toKey := key
  state_ := if bufferPtr.isSome then .LOCKED else .NIL
  buffer_ := bufferPtr

/-- Is this entry associated to a concrete buffer? -/
def isLocked (e : Entry) : Bool := e.buffer_.isSome

/-- Maybe invoke the constructor function; `raises` tells whether it raises then. -/
def invokeEmbeddedCtor (e : Entry) (raises : Bool) : Outcome :=
  match e.buffer_ with
  | none => ⟨e, [], some .bufferRequired⟩
  | some buffer =>
    if nontrivial e.instanceFunc_ then
      if raises then ⟨e, [.failed buffer], some .constructor⟩ else ⟨e, [.created buffer], none⟩
    else
      ⟨e, [], none⟩

/-- Maybe invoke the destructor function. -/
def invokeEmbeddedDtor_and_clear (e : Entry) : Outcome :=
  match e.buffer_ with
  | none => ⟨e, [], some .bufferRequired⟩
  | some buffer =>
    ⟨{ e with buffer_ := none }, if nontrivial e.instanceFunc_ then [.destroyed buffer] else [], none⟩

/-- The transitions of the state machine. -/
def allowedTransition : BufferState → BufferState → Bool
  | .FREE, .LOCKED => true
  | .LOCKED, .EMITTED => true
  | .LOCKED, .BLOCKED => true
  | .LOCKED, .FREE => true
  | .EMITTED, .BLOCKED => true
  | .EMITTED, .FREE => true
  | .BLOCKED, .FREE => true
  | _, _ => false

/-- What is done with the buffer prior to a transition. -/
def prepare (e : Entry) (newState : BufferState) (raises : Bool) : Outcome :=
  match newState with
  | .FREE => e.invokeEmbeddedDtor_and_clear
  | .LOCKED => e.invokeEmbeddedCtor raises
  | _ => ⟨e, [], none⟩

/-- **The buffer state machine.** -/
def mark (e : Entry) (newState : BufferState) (raises : Bool) : Outcome :=
  if e.state_ = .NIL then
    ⟨e, [], some .nilState⟩
  else if allowedTransition e.state_ newState then
    let done := e.prepare newState raises
    match done.raised with
    | some error => ⟨done.entry, done.events, some error⟩
    | none =>
      ⟨{ done.entry with state_ := newState },
        done.events ++ (if newState = .FREE then [.freed] else []), none⟩
  else
    ⟨e, [], some .invalidTransition⟩

/-- Lock an entry which is free, for a new buffer. -/
def lock (e : Entry) (newBuffer : Option Buff) (raises : Bool) : Outcome :=
  if e.state_ ≠ .FREE then
    ⟨e, [], some .alreadyInUse⟩
  else
    mark { e with buffer_ := newBuffer } .LOCKED raises

/-- **Break out of the normal lifecycle**: the entry becomes free in any case. -/
def invalidate (e : Entry) (invokeDtor : Bool) : Outcome :=
  let dropped : List (StorageEvent Buff) :=
    match e.buffer_ with
    | some buffer =>
      if invokeDtor then
        e.invokeEmbeddedDtor_and_clear.events
      else if nontrivial e.instanceFunc_ then [.skipped buffer] else []
    | none => []
  ⟨{ e with buffer_ := none, state_ := .FREE }, dropped ++ [.freed], none⟩

end Entry

/-! ## The registry -/

/-- Registry for managing buffer metadata. What was done with the buffer under each key so far is noted down for
the statements about it. -/
structure BufferMetadata where
  family_ : Nat
  table_ : HashVal → Option Entry
  history : HashVal → List (StorageEvent Buff)

namespace BufferMetadata

variable (m : BufferMetadata)

/-- A registry without any entries. -/
def empty (family : Nat) : BufferMetadata := ⟨family, fun _ => none, fun _ => []⟩

/-- Put an entry into the table. -/
def setEntry (e : Entry) : BufferMetadata := { m with table_ := Function.update m.table_ e.hashID_ (some e) }

/-- Perform an operation on an entry in the table. -/
def commit (done : Outcome) : BufferMetadata :=
  { m.setEntry done.entry with
    history :=
      Function.update m.history done.entry.hashID_ (m.history done.entry.hashID_ ++ done.events) }

/-- Remember a key. -/
def maybeStore (key : Key) : BufferMetadata :=
  if (m.table_ key.hashID_).isSome then m else m.setEntry (.create key none)

/-- **A type key**, combining the distinguishing properties in fixed order. -/
def key (storageSize : Nat) (instanceFunc : TypeHandler) (specifics : LocalTag) : BufferMetadata × Key :=
  let typeKey := Key.basic (.family m.family_) storageSize
  let m := m.maybeStore typeKey
  let (m, typeKey) :=
    if nontrivial instanceFunc then
      (m.maybeStore (typeKey.withHandler instanceFunc), typeKey.withHandler instanceFunc)
    else
      (m, typeKey)
  if nontrivialTag specifics then
    (m.maybeStore (typeKey.withTag specifics), typeKey.withTag specifics)
  else
    (m, typeKey)

/-- Create a sub-type, using a different handler. -/
def keyForHandler (parentKey : Key) (instanceFunc : TypeHandler) : BufferMetadata × Key :=
  (m.maybeStore (parentKey.withHandler instanceFunc), parentKey.withHandler instanceFunc)

/-- Create a sub-type, using a different private tag. -/
def keyForTag (parentKey : Key) (specifics : LocalTag) : BufferMetadata × Key :=
  (m.maybeStore (parentKey.withTag specifics), parentKey.withTag specifics)

/-- **Store an entry starting with locked state**; when the constructor raises, it is marked as free. -/
def storeAsLocked (metadata : Entry) (raises : Bool) : BufferMetadata × Except BufferError HashVal :=
  let done := metadata.invokeEmbeddedCtor raises
  match done.raised with
  | none => (m.commit done, .ok metadata.hashID_)
  | some error =>
    let cleared := done.entry.mark .FREE raises
    (m.commit ⟨cleared.entry, done.events ++ cleared.events, some error⟩, .error error)

/-- **Access or create the entry of a concrete buffer**, and lock it. The entry is returned by reference. -/
def lock (parentKey : Key) (concreteBuffer : Option Buff) (specifics : LocalTag) (onlyNew : Bool)
    (raises : Bool) : BufferMetadata × Except BufferError HashVal :=
  match concreteBuffer with
  | none => (m, .error .nullBuffer)
  | some buffer =>
    match Key.forEntry parentKey (some buffer) specifics with
    | .error error => (m, .error error)
    | .ok newKey =>
      match m.table_ newKey.hashID_ with
      | none => m.storeAsLocked (.create newKey (some buffer)) raises
      | some existing =>
        if onlyNew then
          (m, .error .oldBufferLocked)
        else if existing.isLocked then
          (m, .error .stillInUse)
        else
          let done := existing.lock (some buffer) raises
          (m.commit done, done.raised.elim (.ok newKey.hashID_) .error)

/-- Combine the type with a concrete buffer, thereby marking this buffer as locked. -/
def markLocked (parentKey : Key) (buffer : Option Buff) (specifics : LocalTag) (raises : Bool) :
    BufferMetadata × Except BufferError HashVal :=
  match buffer with
  | none => (m, .error .allocationFloundered)
  | some _ => m.lock parentKey buffer specifics true raises

/-- The key of a concrete buffer, which is marked as locked when not known yet. -/
def keyForBuffer (parentKey : Key) (concreteBuffer : Option Buff) (specifics : LocalTag)
    (raises : Bool) : BufferMetadata × Except BufferError HashVal :=
  match Key.forEntry parentKey concreteBuffer specifics with
  | .error error => (m, .error error)
  | .ok derivedKey =>
    match m.table_ derivedKey.hashID_ with
    | some existing => (m, .ok existing.hashID_)
    | none => m.markLocked parentKey concreteBuffer specifics raises

/-- Purge an entry from the table, which must be free. -/
def release (key : HashVal) : BufferMetadata × Except BufferError Unit :=
  match m.table_ key with
  | none => (m, .ok ())
  | some entry =>
    if entry.state_ ≠ .FREE then
      (m, .error .releaseInUse)
    else
      ({ m with table_ := Function.update m.table_ key none }, .ok ())

/-- Access the entry registered under a key, to perform an operation on it. -/
def onEntry (key : HashVal) (operation : Entry → Outcome) : BufferMetadata × Except BufferError Unit :=
  match m.table_ key with
  | none => (m, .error .unknownEntry)
  | some entry =>
    let done := operation entry
    (m.commit done, done.raised.elim (.ok ()) .error)

end BufferMetadata

/-! ## Operations -/

/-- The operations on the registry and on the entries in the table. Where an operation may invoke a
constructor, `raises` tells whether it raises then. -/
inductive BufferOperation where
  | key (storageSize : Nat) (instanceFunc : TypeHandler) (specifics : LocalTag)
  | keyForHandler (parentKey : Key) (instanceFunc : TypeHandler)
  | keyForTag (parentKey : Key) (specifics : LocalTag)
  | keyForBuffer (parentKey : Key) (concreteBuffer : Option Buff) (specifics : LocalTag) (raises : Bool)
  | lock (parentKey : Key) (concreteBuffer : Option Buff) (specifics : LocalTag) (onlyNew raises : Bool)
  | markLocked (parentKey : Key) (buffer : Option Buff) (specifics : LocalTag) (raises : Bool)
  | release (key : HashVal)
  | mark (key : HashVal) (newState : BufferState) (raises : Bool)
  | lockEntry (key : HashVal) (newBuffer : Option Buff) (raises : Bool)
  | invalidate (key : HashVal) (invokeDtor : Bool)
  deriving DecidableEq, Repr

namespace BufferMetadata

/-- Perform an operation; when it raises, what was done so far persists. -/
def perform (m : BufferMetadata) : BufferOperation → BufferMetadata
  | .key storageSize instanceFunc specifics => (m.key storageSize instanceFunc specifics).1
  | .keyForHandler parentKey instanceFunc => (m.keyForHandler parentKey instanceFunc).1
  | .keyForTag parentKey specifics => (m.keyForTag parentKey specifics).1
  | .keyForBuffer parentKey concreteBuffer specifics raises =>
    (m.keyForBuffer parentKey concreteBuffer specifics raises).1
  | .lock parentKey concreteBuffer specifics onlyNew raises =>
    (m.lock parentKey concreteBuffer specifics onlyNew raises).1
  | .markLocked parentKey buffer specifics raises => (m.markLocked parentKey buffer specifics raises).1
  | .release key => (m.release key).1
  | .mark key newState raises => (m.onEntry key fun e => e.mark newState raises).1
  | .lockEntry key newBuffer raises => (m.onEntry key fun e => e.lock newBuffer raises).1
  | .invalidate key invokeDtor => (m.onEntry key fun e => e.invalidate invokeDtor).1

/-- The runs of a registry, starting without any entries. -/
def machine (family : Nat) : Machine BufferMetadata BufferOperation :=
  .ofFun (.empty family) fun m op => some (m.perform op)

end BufferMetadata

end Lumiera.Steam.Engine
