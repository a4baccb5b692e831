import Lumiera.Base.Machine
import Lumiera.Vault.Gear.ActivityTerm

/-! # Builder operations on Terms (`vault/gear/activity-term.hpp`)

A Term is set up for one of several kinds of jobs; the Activities are then placed into memory and
connected into a chain. For an asynchronous job, the chain is severed after the invocation, and a
second chain starts at the point of re-entrance. Further builder operations let a Term wait for
notifications, and append notifications to its end; the Gate is placed when it is first needed.

Considered is a session with several Terms in the same memory; for each Term, a record is kept of
the builder operations called, which is not used by any of them. -/

namespace Lumiera.Vault.Gear.TermBuilder

/-! ## Verbs without arguments -/

/-- The kind of verb, which is constant for an Activity. -/
inductive Tag
  | INVOKE
  | WORKSTART
  | WORKSTOP
  | NOTIFY
  | GATE
  | POST
  | FEED
  | TICK
  deriving DecidableEq, Repr

def tag : Verb → Tag
  | .INVOKE _ _ => .INVOKE
  | .WORKSTART => .WORKSTART
  | .WORKSTOP => .WORKSTOP
  | .NOTIFY _ _ => .NOTIFY
  | .GATE _ => .GATE
  | .POST _ => .POST
  | .FEED _ _ => .FEED
  | .TICK => .TICK

/-- The kind of verb stored at an address. -/
def tag? (mem : Memory) (a : Addr) : Option Tag := mem[a]?.map fun act => tag act.verb

/-! ## The operations of a Term -/

/-- The scheme for a synchronous media calculation job, an asynchronous data retrieval job, or a
planning and organisational job. -/
inductive Template
  | CALC_JOB
  | LOAD_JOB
  | META_JOB
  deriving DecidableEq, Repr

/-- **A Term**; the re-entrance point is present for an asynchronous job only. -/
structure Term where
  invoke_ : Addr
  post_ : Addr
  gate_ : Option Addr := none
  callback_ : Option Addr := none
  deriving DecidableEq, Repr

namespace Term

/-- Place the Gate behind the `POST`, unless there is one. -/
def setupGate (term : Term) (mem : Memory) : Option (Term × Memory) :=
  if term.gate_.isSome then some (term, mem)
  else (mem.setupGate term.post_).map fun (gate, mem) => ({ term with gate_ := some gate }, mem)

def insertWorkBracket (term : Term) (mem : Memory) : Option (Term × Memory) :=
  (mem.insertWorkBracket (term.gate_.getD term.post_)).map fun mem => (term, mem)

/-- Sever the chain behind the invocation; what follows is started by the callback. -/
def severAsyncChain (term : Term) (mem : Memory) : Option (Term × Memory) :=
  if term.callback_.isSome then some (term, mem)
  else do
    let cut ← mem.next (← mem.next term.invoke_)
    if tag? mem cut = some .FEED then
      let callback ← mem.next cut
      some ({ term with callback_ := some callback }, mem.setNext cut none)
    else none

def configureTemplate (term : Term) (kind : Template) (mem : Memory) : Option (Term × Memory) :=
  match kind with
  | .CALC_JOB => (term.setupGate mem).bind fun (term, mem) => term.insertWorkBracket mem
  | .LOAD_JOB => (term.insertWorkBracket mem).bind fun (term, mem) => term.severAsyncChain mem
  -- use the minimal default wiring
  | .META_JOB => some (term, mem)

/-- The constructor. -/
def construct (kind : Template) (start dead : Int) (job : Job) (mem : Memory) : Option (Term × Memory) :=
  let (invoke, mem) := mem.setupInvocation job
  let (post, mem) := mem.setupPost start dead invoke
  configureTemplate { invoke_ := invoke, post_ := post } kind mem

/-- Block the Term waiting for a notification, which is set to send to the Gate. -/
def expectNotification (term : Term) (notificationSrc : Addr) (unlimitedTime : Bool) (mem : Memory) :
    Option (Term × Memory) :=
  if tag? mem notificationSrc = some .NOTIFY then do
    let (term, mem) ← term.setupGate mem
    let gate ← term.gate_
    let condition ← mem.condition? gate
    let mem := mem.setVerb gate (.GATE condition.incDependencies)
    let timeWindow ← mem.timeWindow? term.post_
    let triggerTimeStart := if unlimitedTime then Lib.Time.ANYTIME else timeWindow.life
    some (term, mem.setVerb notificationSrc (.NOTIFY (some gate) triggerTimeStart))
  else none

/-- A new `NOTIFY`. -/
def createNotify (mem : Memory) : Addr × Memory := mem.create ⟨.NOTIFY none 0, none⟩

/-- Link a notification to the end of the chain, or of the chain started by the callback. -/
def appendToTail (term : Term) (success : Addr) (mem : Memory) : Option Memory :=
  (mem.findTail mem.length (term.callback_.getD term.invoke_)).map fun tail => mem.insert tail success

/-- Insert a self-inhibition, which is resolved when the chain is activated. -/
def requireDirectActivation (term : Term) (mem : Memory) : Option (Term × Memory) :=
  let (trigger, mem) := createNotify mem
  (term.expectNotification trigger false mem).map fun (term, mem) => (term, mem.insert term.post_ trigger)

end Term

/-! ## Sessions -/

/-- The builder operations called on a Term. -/
structure Calls where
  kind : Template
  /-- Calls of `expectNotification`, also when called by another Term's `appendNotificationTo`. -/
  expected : ℕ := 0
  /-- The triggers created by `requireDirectActivation`, starting with the last one. -/
  direct : List Addr := []
  /-- The notifications created by `appendNotificationTo`. -/
  appended : List Addr := []
  deriving DecidableEq, Repr

namespace Calls

def expect (calls : Calls) : Calls := { calls with expected := calls.expected + 1 }

def require (trigger : Addr) (calls : Calls) : Calls := { calls with direct := trigger :: calls.direct }

def append (success : Addr) (calls : Calls) : Calls := { calls with appended := calls.appended ++ [success] }

end Calls

/-- Several Terms within the same memory, with a record of the builder calls. -/
structure Session where
  mem : Memory := []
  terms : List Term := []
  calls : List Calls := []
  deriving DecidableEq, Repr

/-- The builder operations; Terms are given by their number. -/
inductive Operation
  /-- Set up a Term, with `configureTemplate` for this kind of job. -/
  | construct (kind : Template) (start dead : Int) (job : Job)
  /-- A `NOTIFY` from elsewhere. -/
  | createNotify
  | expectNotification (term : ℕ) (notificationSrc : Addr) (unlimitedTime : Bool)
  | appendNotificationTo (term targetTerm : ℕ) (unlimitedTime : Bool)
  | requireDirectActivation (term : ℕ)
  deriving DecidableEq, Repr

namespace Session

/-- **One builder operation**, which has no result when a requirement is violated or the end of a
chain is not found. -/
def step (s : Session) : Operation → Option Session
  | .construct kind start dead job =>
    (Term.construct kind start dead job s.mem).map fun (term, mem) =>
      ⟨mem, s.terms ++ [term], s.calls ++ [{ kind }]⟩
  | .createNotify => some { s with mem := (Term.createNotify s.mem).2 }
  | .expectNotification i notificationSrc unlimitedTime => do
      let term ← s.terms[i]?
      let (term, mem) ← term.expectNotification notificationSrc unlimitedTime s.mem
      some ⟨mem, s.terms.set i term, s.calls.modify i Calls.expect⟩
  | .appendNotificationTo i j unlimitedTime => do
      let term ← s.terms[i]?
      let (success, mem) := Term.createNotify s.mem
      let mem ← term.appendToTail success mem
      let targetTerm ← s.terms[j]?
      let (targetTerm, mem) ← targetTerm.expectNotification success unlimitedTime mem
      some ⟨mem, s.terms.set j targetTerm, (s.calls.modify i (Calls.append success)).modify j Calls.expect⟩
  | .requireDirectActivation i => do
      let term ← s.terms[i]?
      let (term, mem) ← term.requireDirectActivation s.mem
      some ⟨mem, s.terms.set i term, s.calls.modify i (Calls.require (Term.createNotify s.mem).1)⟩

/-- The builder operations as a machine, starting without any Term. -/
def machine : Machine Session Operation := .ofFun {} step

end Session

end Lumiera.Vault.Gear.TermBuilder
