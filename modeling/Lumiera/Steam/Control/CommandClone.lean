import Mathlib.Logic.Function.Basic
import Lumiera.Base.Machine

/-! # Commands with undo, and their clones (`steam/control/command-impl.hpp`, `command-storage-holder.hpp`,
`memento-tie.hpp`, `command-impl-clone-builder.hpp`)

The implementation of a command holds three functors: the operation, and the functions for capturing and for
undoing, both of which are bound to a `MementoTie`, where the captured state is stored. This memento and the
arguments live in a `StorageHolder`, which the implementation refers to as its closure. For a clone, first the
holder is copied, and then the functors for capturing and undoing are bound anew, to the copy.

Holders are denoted by their address. The functors may access the session, may change the arguments, which
are passed by reference, and may raise an exception. -/

namespace Lumiera.Steam.Control.Undo

open Function

universe u

/-- A function invoked with the arguments of a command: yields the arguments and the session thereafter, and
the result unless an exception was raised. -/
abbrev Functor (Args Session : Type u) (R : Type u) := Args → Session → Args × Session × Option R

/-- The functions which define a command. -/
structure Definition (Args MEM Session : Type u) where
  operation : Functor Args Session PUnit.{u + 1}
  captureUndo : Functor Args Session MEM
  undoOperation : MEM → Functor Args Session PUnit.{u + 1}

/-- Storage for the arguments, and for the memento together with the undecorated functors. -/
structure StorageHolder (Args MEM Session : Type u) where
  arguments_ : Option Args
  memento_ : MEM
  isCaptured_ : Bool
  undo_ : MEM → Functor Args Session PUnit.{u + 1}
  capture_ : Functor Args Session MEM

/-- The functors for capturing and undoing, each with the address of the memento they are bound to. -/
structure UndoMutation (Args MEM Session : Type u) where
  undo : MEM → Functor Args Session PUnit.{u + 1}
  undoTie : Nat
  captureMemento_ : Functor Args Session MEM
  captureTie : Nat

/-- The implementation of a command. -/
structure CommandImpl (Args MEM Session : Type u) where
  do_ : Functor Args Session PUnit.{u + 1}
  undo_ : UndoMutation Args MEM Session
  pClo_ : Nat

/-- All commands, all storage holders, and the session they operate on. What was done with a command is noted
down for the statements below: the state captured since it was created or unbound, the memento taken over from
the origin of a clone, and all invocations of undo functions. -/
structure Commands (Args MEM Session : Type u) where
  cnt : Nat
  impls : Nat → CommandImpl Args MEM Session
  allocated : Nat
  holders : Nat → StorageHolder Args MEM Session
  session : Session
  registry : String → Option Nat
  captured : Nat → Option MEM
  inherited : Nat → Option MEM
  undone : List (Nat × Args × MEM)

variable {Args MEM Session : Type u}

/-- Bind the functors to the memento storage within the given holder. -/
def UndoMutation.tie (holder : StorageHolder Args MEM Session) (address : Nat) :
    UndoMutation Args MEM Session :=
  ⟨holder.undo_, address, holder.capture_, address⟩

namespace Commands

variable (s : Commands Args MEM Session)

/-- The storage a command uses. -/
def closure (cmd : Nat) : StorageHolder Args MEM Session := s.holders (s.impls cmd).pClo_

/-- The arguments are bound. -/
def canExec (cmd : Nat) : Bool := (s.closure cmd).arguments_.isSome

/-- State was captured. -/
def canUndo (cmd : Nat) : Bool := (s.closure cmd).isCaptured_

def setHolder (address : Nat) (holder : StorageHolder Args MEM Session) : Commands Args MEM Session :=
  { s with holders := update s.holders address holder }

/-- A new implementation frame which uses the given holder. -/
def allocate (operation : Functor Args Session PUnit.{u + 1}) (holder : StorageHolder Args MEM Session)
    (inherited : Option MEM) : Commands Args MEM Session :=
  { s with
    cnt := s.cnt + 1
    impls := update s.impls s.cnt ⟨operation, .tie holder s.allocated, s.allocated⟩
    allocated := s.allocated + 1
    holders := update s.holders s.allocated holder
    captured := update s.captured s.cnt none
    inherited := update s.inherited s.cnt inherited }

/-- **Define a command**: the memento is empty initially. -/
def newCommandImpl (nullValue : MEM) (definition : Definition Args MEM Session) :
    Commands Args MEM Session :=
  s.allocate definition.operation
    ⟨none, nullValue, false, definition.undoOperation, definition.captureUndo⟩ none

/-- The memento a command would use for undo, for the record. -/
def recorded (cmd : Nat) : Option MEM := (s.captured cmd).or (s.inherited cmd)

/-- **Create a clone**: the copied holder includes the arguments and the memento, if any. -/
def createCloneImpl (cmd : Nat) : Commands Args MEM Session :=
  s.allocate (s.impls cmd).do_ (s.closure cmd) (s.recorded cmd)

/-- Invoke a functor with the arguments in the storage at this address. -/
def invoke {R : Type u} (address : Nat) (func : Functor Args Session R) :
    Commands Args MEM Session × Option R :=
  match (s.holders address).arguments_ with
  | none => (s, none)
  | some args =>
    let (args, session, result) := func args s.session
    ({ s.setHolder address { s.holders address with arguments_ := some args } with session := session },
      result)

/-- Capture state into the memento storage the functor is bound to. -/
def invokeCapture (cmd : Nat) : Commands Args MEM Session × Option PUnit.{u + 1} :=
  let undo := (s.impls cmd).undo_
  match s.invoke (s.impls cmd).pClo_ undo.captureMemento_ with
  | (s, none) => (s, none)
  | (s, some mementoVal) =>
    ({ s.setHolder undo.captureTie
          { s.holders undo.captureTie with memento_ := mementoVal, isCaptured_ := true } with
        captured := update s.captured cmd (some mementoVal) },
      some ⟨⟩)

def invokeOperation (cmd : Nat) : Commands Args MEM Session × Option PUnit.{u + 1} :=
  s.invoke (s.impls cmd).pClo_ (s.impls cmd).do_

/-- Undo with the memento the functor is bound to, which has to be captured. -/
def invokeUndo (cmd : Nat) : Commands Args MEM Session × Option PUnit.{u + 1} :=
  let undo := (s.impls cmd).undo_
  match (s.closure cmd).arguments_ with
  | none => (s, none)
  | some args =>
    if (s.holders undo.undoTie).isCaptured_ then
      let mementoVal := (s.holders undo.undoTie).memento_
      let (s, result) := s.invoke (s.impls cmd).pClo_ (undo.undo mementoVal)
      ({ s with undone := s.undone ++ [(cmd, args, mementoVal)] }, result)
    else (s, none)

/-! ## Operations on commands -/

def bindArg (cmd : Nat) (args : Args) : Commands Args MEM Session :=
  s.setHolder (s.impls cmd).pClo_ { s.closure cmd with arguments_ := some args }

/-- Discard the arguments and the memento. -/
def unbind (nullValue : MEM) (cmd : Nat) : Commands Args MEM Session :=
  { s.setHolder (s.impls cmd).pClo_
      { s.closure cmd with arguments_ := none, memento_ := nullValue, isCaptured_ := false } with
    captured := update s.captured cmd none
    inherited := update s.inherited cmd none }

/-- **Execute**: capture, then invoke the operation. -/
def exec (cmd : Nat) : Commands Args MEM Session :=
  if s.canExec cmd then
    match s.invokeCapture cmd with
    | (s, none) => s
    | (s, some _) => (s.invokeOperation cmd).1
  else s

/-- **Undo**, which is possible only when state was captured. -/
def undo (cmd : Nat) : Commands Args MEM Session :=
  if s.canUndo cmd then (s.invokeUndo cmd).1 else s

end Commands

/-- What can be done with commands. -/
inductive Operation (Args MEM Session : Type u) where
  | define (cmdID : String) (definition : Definition Args MEM Session)
  | newInstance (cmd : Nat)
  | storeDef (cmd : Nat) (newCmdID : String)
  | bindArg (cmd : Nat) (args : Args)
  | unbind (cmd : Nat)
  | exec (cmd : Nat)
  | undo (cmd : Nat)

namespace Commands

variable (s : Commands Args MEM Session)

/-- Perform an operation, given the empty memento value; when it raises, there is no effect beyond what was
done up to this point. -/
def perform (nullValue : MEM) : Operation Args MEM Session → Commands Args MEM Session
  | .define cmdID definition =>
    if (s.registry cmdID).isSome then s
    else
      { s.newCommandImpl nullValue definition with
        registry := update s.registry cmdID (some s.cnt) }
  | .newInstance cmd => if cmd < s.cnt then s.createCloneImpl cmd else s
  | .storeDef cmd newCmdID =>
    if cmd < s.cnt ∧ (s.registry newCmdID).isNone then
      { s.createCloneImpl cmd with registry := update s.registry newCmdID (some s.cnt) }
    else s
  | .bindArg cmd args => if cmd < s.cnt then s.bindArg cmd args else s
  | .unbind cmd => if cmd < s.cnt then s.unbind nullValue cmd else s
  | .exec cmd => if cmd < s.cnt then s.exec cmd else s
  | .undo cmd => if cmd < s.cnt then s.undo cmd else s

/-- Any sequence of operations, starting without commands. -/
def machine (nullValue : MEM) : Machine (Commands Args MEM Session) (Operation Args MEM Session) where
  init s := s.cnt = 0 ∧ s.undone = []
  step s op s' := s.perform nullValue op = s'

end Commands

end Lumiera.Steam.Control.Undo
