import Lumiera.Base.Machine
import Lumiera.Common.Advice.IndexOperations
import Lumiera.Lib.DelStash

/-! # The advice system and its clients (`common/advice.hpp`, `common/advice/advice.cpp`)

Client code holds `Provision` and `Request` objects, which may be created, copied, assigned and
destroyed. Setting advice copies it into an `ActiveProvision`, stored within the advice system and
published through the index; it outlives the `Provision` object. Requests are known to the index by
their location. The buffer used for storing a piece of advice is chosen by the allocator: any one
not in use, possibly one which was in use before. A result `none` means that a call raises. -/

namespace Lumiera.Advice

open Function

open Lumiera.Lib (DelStash)

/-- **Piece of advice as incorporated into the advice system.** Its binding is known to the index. -/
structure ActiveProvision (D : Type) where
  /-- Running number of this allocation. -/
  serial : Nat
  theAdvice : D

/-- Why a stored piece of advice was discarded. -/
inductive Cause
  | superseded
  | retracted
  | shutdown
  deriving DecidableEq, Repr

/-- **The advice system, together with the objects held by client code.** -/
structure Collaboration (R V A D : Type) where
  index : Index R A
  adviceDataRegistry : DelStash A
  /-- The buffers holding advice at present. -/
  stored : A → Option (ActiveProvision D)
  /-- Is there a `Request` object at this location? -/
  alive : R → Bool
  /-- The `Provision` objects by location. -/
  provisionObjects : V → Option (PointOfAdvice A)
  /-- Number of allocations so far. -/
  allocations : Nat
  /-- The allocations passed to the deleter, with the cause; `none` for a buffer not in use. -/
  discarded : List (Option Nat × Cause)
  isShutdown : Bool

namespace Collaboration

variable {R V A D : Type} [DecidableEq R] [DecidableEq V] [DecidableEq A]

/-- At startup. -/
def initial : Collaboration R V A D where
  index := .empty (fun _ => ⟨⟨0⟩, none⟩) fun _ => ⟨0⟩
  adviceDataRegistry := .empty
  stored _ := none
  alive _ := false
  provisionObjects _ := none
  allocations := 0
  discarded := []
  isShutdown := false

/-! ## Storage of advice data -/

/-- `releaseAdviceData`: destroy the holder and release its buffer. -/
def releaseAdviceData (cause : Cause) (s : Collaboration R V A D) (a : A) :
    Collaboration R V A D :=
  { s with
    stored := update s.stored a none
    discarded := s.discarded ++ [((s.stored a).map (·.serial), cause)] }

/-- Discard a stored provision, if given. -/
def discardEntry (s : Collaboration R V A D) (cause : Cause) :
    Option A → Option (Collaboration R V A D)
  | none => some s
  | some storedProvision => do
      let (deleted, registry) ← s.adviceDataRegistry.kill storedProvision
      return deleted.foldl (releaseAdviceData cause) { s with adviceDataRegistry := registry }

/-- Copy the advice into a new holder with the given binding. -/
def storeCopy (s : Collaboration R V A D) (pattern : Matcher) (advice : D) (buffer : A) :
    Option (Collaboration R V A D) :=
  if (s.stored buffer).isSome then none
  else do
    let registry ← s.adviceDataRegistry.manage buffer
    return { s with
      stored := update s.stored buffer (some ⟨s.allocations, advice⟩)
      index := { s.index with provisions := update s.index.provisions buffer pattern }
      adviceDataRegistry := registry
      allocations := s.allocations + 1 }

/-- Shutdown of the advice system: all advice data still stored is discarded. -/
def shutdown (s : Collaboration R V A D) : Collaboration R V A D :=
  let (deleted, registry) := s.adviceDataRegistry.killAll
  { deleted.foldl (releaseAdviceData .shutdown) { s with adviceDataRegistry := registry } with
    isShutdown := true }

/-! ## Operations of a provision -/

/-- Store a `Provision` object. -/
def setProvisionObject (s : Collaboration R V A D) (v : V) (link : PointOfAdvice A) :
    Collaboration R V A D :=
  { s with provisionObjects := update s.provisionObjects v (some link) }

/-- Forward additions and retractions to the index, as done by `AdviceSystem::publishProvision`. -/
def forwardProvision (index : Index R A) (previousProvision newProvision : Option A) :
    Option (Index R A) :=
  match previousProvision, newProvision with
  | none, some new => index.addProvision new
  | some previous, some new => index.modifyProvision previous new
  | some previous, none => index.removeProvision previous
  | none, none => some index

/-- `AdviceLink::publishProvision`: the new provision supersedes the previous one. -/
def publishProvision (s : Collaboration R V A D) (v : V) (newProvision : Option A) :
    Option (Collaboration R V A D) := do
  let link ← s.provisionObjects v
  let s := s.setProvisionObject v { link with resolution := newProvision }
  let index ← forwardProvision s.index link.resolution newProvision
  { s with index := index }.discardEntry .superseded link.resolution

/-- `AdviceLink::discardSolutions`: an existing provision is retracted. -/
def discardSolutions (s : Collaboration R V A D) (v : V) : Option (Collaboration R V A D) := do
  let link ← s.provisionObjects v
  let s := s.setProvisionObject v { link with resolution := none }
  let index ← forwardProvision s.index link.resolution none
  { s with index := index }.discardEntry .retracted link.resolution

/-- `Provision::Provision`. -/
def newProvision (s : Collaboration R V A D) (v : V) (pattern : Matcher) :
    Option (Collaboration R V A D) :=
  if (s.provisionObjects v).isSome then none
  else some (s.setProvisionObject v ⟨pattern, none⟩)

/-- Copying a `Provision` does not copy the link to its advice. -/
def copyProvision (s : Collaboration R V A D) (v o : V) : Option (Collaboration R V A D) := do
  let link ← s.provisionObjects o
  if (s.provisionObjects v).isSome then none
  else some (s.setProvisionObject v { link with resolution := none })

/-- `Provision::operator=` -/
def assignProvision (s : Collaboration R V A D) (v o : V) : Option (Collaboration R V A D) := do
  let _ ← s.provisionObjects v
  let link ← s.provisionObjects o
  if v = o then some s
  else some (s.setProvisionObject v { link with resolution := none })

/-- `Provision::~Provision`: the advice remains available. -/
def deleteProvision (s : Collaboration R V A D) (v : V) : Option (Collaboration R V A D) := do
  let _ ← s.provisionObjects v
  return { s with provisionObjects := update s.provisionObjects v none }

/-- `Provision::setAdvice` -/
def setAdvice (s : Collaboration R V A D) (v : V) (pieceOfAdvice : D) (buffer : A) :
    Option (Collaboration R V A D) := do
  let link ← s.provisionObjects v
  let s ← s.storeCopy link.pattern pieceOfAdvice buffer
  s.publishProvision v (some buffer)

/-- `Provision::defineBinding`: advice published already is published anew with this binding. -/
def bindProvision (s : Collaboration R V A D) (v : V) (pattern : Matcher) (buffer : A) :
    Option (Collaboration R V A D) := do
  let link ← s.provisionObjects v
  let s := s.setProvisionObject v { link with pattern := pattern }
  match link.resolution with
  | none => return s
  | some solution => do
      let held ← s.stored solution
      let s ← s.storeCopy pattern held.theAdvice buffer
      s.publishProvision v (some buffer)

/-! ## Operations of a request -/

/-- Store a `Request` object. -/
def setRequestObject (s : Collaboration R V A D) (r : R) (link : PointOfAdvice A) :
    Collaboration R V A D :=
  { s with
    index := { s.index with requests := update s.index.requests r link }
    alive := update s.alive r true }

/-- `Request::Request`: the request is registered right away. -/
def newRequest (s : Collaboration R V A D) (r : R) (pattern : Matcher) :
    Option (Collaboration R V A D) :=
  if s.alive r then none
  else do
    let s := s.setRequestObject r ⟨pattern, none⟩
    return { s with index := ← s.index.addRequest r }

/-- Copying a `Request`, "allowed, using default". -/
def copyRequest (s : Collaboration R V A D) (r o : R) : Option (Collaboration R V A D) :=
  if s.alive r ∨ ¬ s.alive o then none
  else some (s.setRequestObject r (s.index.requests o))

/-- Assigning to a `Request`, likewise using default. -/
def assignRequest (s : Collaboration R V A D) (r o : R) : Option (Collaboration R V A D) :=
  if ¬ s.alive r ∨ ¬ s.alive o then none
  else some (s.setRequestObject r (s.index.requests o))

/-- `Request::defineBinding` -/
def bindRequest (s : Collaboration R V A D) (r : R) (pattern : Matcher) :
    Option (Collaboration R V A D) :=
  if ¬ s.alive r then none
  else do
    return { s with index := ← s.index.rebindRequest r pattern }

/-- `Request::~Request` -/
def deleteRequest (s : Collaboration R V A D) (r : R) : Option (Collaboration R V A D) :=
  if ¬ s.alive r then none
  else do
    return { s with
      index := ← s.index.removeRequest r
      alive := update s.alive r false }

/-! ## Runs -/

/-- What client code can do. -/
inductive ClientOp (R V A D : Type)
  | newProvision (v : V) (pattern : Matcher)
  | copyProvision (v o : V)
  | assignProvision (v o : V)
  | deleteProvision (v : V)
  | setAdvice (v : V) (pieceOfAdvice : D) (buffer : A)
  | retractAdvice (v : V)
  | bindProvision (v : V) (pattern : Matcher) (buffer : A)
  | newRequest (r : R) (pattern : Matcher)
  | copyRequest (r o : R)
  | assignRequest (r o : R)
  | bindRequest (r : R) (pattern : Matcher)
  | deleteRequest (r : R)
  | shutdown

/-- Perform a call, before shutdown. -/
def step (s : Collaboration R V A D) (op : ClientOp R V A D) : Option (Collaboration R V A D) :=
  if s.isShutdown then none
  else match op with
    | .newProvision v pattern => s.newProvision v pattern
    | .copyProvision v o => s.copyProvision v o
    | .assignProvision v o => s.assignProvision v o
    | .deleteProvision v => s.deleteProvision v
    | .setAdvice v pieceOfAdvice buffer => s.setAdvice v pieceOfAdvice buffer
    | .retractAdvice v => s.discardSolutions v
    | .bindProvision v pattern buffer => s.bindProvision v pattern buffer
    | .newRequest r pattern => s.newRequest r pattern
    | .copyRequest r o => s.copyRequest r o
    | .assignRequest r o => s.assignRequest r o
    | .bindRequest r pattern => s.bindRequest r pattern
    | .deleteRequest r => s.deleteRequest r
    | .shutdown => some s.shutdown

/-- Any sequence of calls, as long as none raises. -/
def machine : Machine (Collaboration R V A D) (ClientOp R V A D) := .ofFun initial step

end Collaboration

end Lumiera.Advice
