import Lumiera.Stage.Ctrl.StateRecorder

/-! # Tangible UI elements at the bus (`stage/model/tangible.cpp`)

A tangible element has an expansion state, and possibly a message and an error shown persistently.
It changes state when one of its slots is invoked, or on receiving a state mark over the bus, and
when the change is a real one it notes a state mark in turn, which the bus passes to the state
recorder. The recorder replays what it has captured by sending it as state mark to the elements. -/

namespace Lumiera.Stage.Model

open Ctrl

universe u

variable {ι : Type u}

/-! ## Elements -/

/-- The persistent presentation state of an element; initially collapsed, without message or error. -/
structure Element where
  expanded : Bool := false
  message : Option String := none
  error : Option String := none
  deriving DecidableEq, Repr

/-- How the kind of an element handles texts: which persistent message or error it shows when given
a text. A kind whose messages are not sticky shows none. -/
structure Hooks where
  msg : String → Option String
  err : String → Option String

/-- `doReset`: back to the initial state; whether there was anything to reset. -/
def doReset (elm : Element) : Element × Bool := ({}, elm ≠ {})

/-- `doClearMsg`. -/
def doClearMsg (elm : Element) : Element × Bool := ({ elm with message := none }, elm.message ≠ none)

/-- `doClearErr`. -/
def doClearErr (elm : Element) : Element × Bool := ({ elm with error := none }, elm.error ≠ none)

/-- `doMsg`. -/
def doMsg (hooks : Hooks) (text : String) (elm : Element) : Element × Bool :=
  ({ elm with message := hooks.msg text }, hooks.msg text ≠ elm.message)

/-- `doErr`. -/
def doErr (hooks : Hooks) (text : String) (elm : Element) : Element × Bool :=
  ({ elm with error := hooks.err text }, hooks.err text ≠ elm.error)

/-- `Expander::operator()`: probes the state, changes it if necessary, and returns the state probed. -/
def expander (shallExpand : Bool) (elm : Element) : Element × Bool :=
  let currState := elm.expanded
  (if currState ≠ shallExpand then { elm with expanded := shallExpand } else elm, currState)

/-- `doExpand`: whether the expansion state has actually been changed. -/
def doExpand (yes : Bool) (elm : Element) : Element × Bool :=
  let (elm', oldState) := expander yes elm
  (elm', oldState ≠ yes)

/-! ## Elements connected to the bus -/

/-- The UI-Bus: the elements connected to it, and what the state recorder has captured. -/
structure UiBus (ι : Type u) [DecidableEq ι] where
  /-- The elements by their identity. -/
  routingTable_ : ι → Option Element
  /-- The storage of the state recorder. -/
  storage_ : StateMapGroupingStorage ι

variable [DecidableEq ι]

namespace UiBus

/-- `note`, routed to the state recorder. -/
def note (bus : UiBus ι) (subject : ι) (mark : StateMark) : UiBus ι :=
  { bus with storage_ := bus.storage_.recordState subject mark }

/-- Invokes a hook of an element, and notes a state mark if it reports a change. -/
def invoke (bus : UiBus ι) (id : ι) (hook : Element → Element × Bool) (mark : StateMark) : UiBus ι :=
  match bus.routingTable_ id with
  | none => bus
  | some elm =>
    let bus' := { bus with routingTable_ := Function.update bus.routingTable_ id (some (hook elm).1) }
    if (hook elm).2 then bus'.note id mark else bus'

theorem invoke_eq {bus : UiBus ι} {id : ι} {elm : Element} (h : bus.routingTable_ id = some elm)
    (hook : Element → Element × Bool) (mark : StateMark) :
    bus.invoke id hook mark =
      ⟨Function.update bus.routingTable_ id (some (hook elm).1),
        if (hook elm).2 then bus.storage_.recordState id mark else bus.storage_⟩ := by
  simp only [invoke, h]
  split <;> rfl

/-- `Tangible::reset`. -/
def reset (bus : UiBus ι) (id : ι) : UiBus ι := bus.invoke id doReset ⟨MARK_reset, .bool true⟩

/-- `Tangible::clearErr`. -/
def clearErr (bus : UiBus ι) (id : ι) : UiBus ι := bus.invoke id doClearErr ⟨MARK_clearErr, .bool true⟩

/-- `Tangible::clearMsg`. -/
def clearMsg (bus : UiBus ι) (id : ι) : UiBus ι := bus.invoke id doClearMsg ⟨MARK_clearMsg, .bool true⟩

/-- `Tangible::slotExpand`. -/
def slotExpand (bus : UiBus ι) (id : ι) : UiBus ι := bus.invoke id (doExpand true) ⟨MARK_expand, .bool true⟩

/-- `Tangible::slotCollapse`. -/
def slotCollapse (bus : UiBus ι) (id : ι) : UiBus ι :=
    bus.invoke id (doExpand false) ⟨MARK_expand, .bool false⟩

variable (hooks : ι → Hooks)

/-- `Tangible::markMsg`. -/
def markMsg (bus : UiBus ι) (id : ι) (message : String) : UiBus ι :=
  bus.invoke id (doMsg (hooks id) message) ⟨MARK_Message, .text message⟩

/-- `Tangible::markErr`. -/
def markErr (bus : UiBus ι) (id : ι) (error : String) : UiBus ι :=
  bus.invoke id (doErr (hooks id) error) ⟨MARK_Error, .text error⟩

/-- `Tangible::doMark`, the default handler. Whatever the change was, it is noted as an expansion.
Payloads of the wrong type raise an exception. -/
def doMark (bus : UiBus ι) (id : ι) (stateMark : StateMark) : Option (UiBus ι) :=
  if stateMark.sym = MARK_expand then
    match stateMark.data with
    | .bool yes => some (bus.invoke id (doExpand yes) ⟨MARK_expand, .bool true⟩)
    | _ => none
  else if stateMark.sym = MARK_reset then some (bus.reset id)
  else if stateMark.sym = MARK_clearMsg then some (bus.clearMsg id)
  else if stateMark.sym = MARK_clearErr then some (bus.clearErr id)
  -- revealing an element, and marks not known, are without persistent effect
  else some bus

/-- `Tangible::mark`. -/
def tangibleMark (bus : UiBus ι) (id : ι) (stateMark : StateMark) : Option (UiBus ι) :=
  if stateMark.sym = MARK_Flash then some bus
  else if stateMark.sym = MARK_Error then
    match stateMark.data with
    | .text error => some (bus.markErr hooks id error)
    | _ => none
  else if stateMark.sym = MARK_Message then
    match stateMark.data with
    | .text message => some (bus.markMsg hooks id message)
    | _ => none
  else bus.doMark id stateMark

/-- `Nexus::mark`: a mark for an element which is not connected is dropped. -/
def mark (bus : UiBus ι) (subject : ι) (stateMark : StateMark) : Option (UiBus ι) :=
  match bus.routingTable_ subject with
  | none => some bus
  | some _ => bus.tangibleMark hooks subject stateMark

/-! ## Replay -/

/-- `replayState`. -/
def replayState (bus : UiBus ι) (uiElm : ι) (propertyKey : String) : Option (UiBus ι) :=
  match bus.storage_.retrieve uiElm propertyKey with
  | none => some bus
  | some state => bus.mark hooks uiElm state

/-- `replayPropertiesOf`. What an element notes meanwhile can only update the mark just replayed, so
the marks are taken as they were at the beginning. -/
def replayPropertiesOf (bus : UiBus ι) (entry : Sigma fun _ : ι => StateData) : Option (UiBus ι) :=
  entry.2.marks.foldlM (fun bus stateMark => bus.mark hooks entry.1 stateMark) bus

/-- `replayAllState ()`. -/
def replayAllState (bus : UiBus ι) : Option (UiBus ι) :=
  bus.storage_.entries.foldlM (fun bus entry => bus.replayPropertiesOf hooks entry) bus

/-- `replayAllState (propertyKey)`. -/
def replayAllStateOf (bus : UiBus ι) (propertyKey : String) : Option (UiBus ι) :=
  bus.storage_.entries.foldlM
    (fun bus entry =>
      match entry.2.findProperty propertyKey with
      | none => some bus
      | some state => bus.mark hooks entry.1 state) bus

/-- `replayAllProperties`. -/
def replayAllProperties (bus : UiBus ι) (uiElm : ι) : Option (UiBus ι) :=
  match bus.storage_.lookup uiElm with
  | none => some bus
  | some data => bus.replayPropertiesOf hooks ⟨uiElm, data⟩

/-! ## Runs -/

/-- What may happen at the bus. -/
inductive Action (ι : Type u)
  | slotExpand (id : ι)
  | slotCollapse (id : ι)
  | reset (id : ι)
  | clearMsg (id : ι)
  | clearErr (id : ι)
  | markMsg (id : ι) (message : String)
  | markErr (id : ι) (error : String)
  | mark (subject : ι) (stateMark : StateMark)
  | replayState (uiElm : ι) (propertyKey : String)
  | replayAllState
  | replayAllStateOf (propertyKey : String)
  | replayAllProperties (uiElm : ι)

/-- Performs an action; without result when it raises an exception. -/
def perform (bus : UiBus ι) : Action ι → Option (UiBus ι)
  | .slotExpand id => some (bus.slotExpand id)
  | .slotCollapse id => some (bus.slotCollapse id)
  | .reset id => some (bus.reset id)
  | .clearMsg id => some (bus.clearMsg id)
  | .clearErr id => some (bus.clearErr id)
  | .markMsg id message => some (bus.markMsg hooks id message)
  | .markErr id error => some (bus.markErr hooks id error)
  | .mark subject stateMark => bus.mark hooks subject stateMark
  | .replayState uiElm propertyKey => bus.replayState hooks uiElm propertyKey
  | .replayAllState => bus.replayAllState hooks
  | .replayAllStateOf propertyKey => bus.replayAllStateOf hooks propertyKey
  | .replayAllProperties uiElm => bus.replayAllProperties hooks uiElm

end UiBus

end Lumiera.Stage.Model
