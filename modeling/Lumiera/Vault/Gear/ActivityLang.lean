import Lumiera.Base.Machine
import Lumiera.Vault.Gear.SchedulerInvocation
import Lumiera.Vault.Gear.TermWiring

/-! # Execution of the Activity-Language (`activity.hpp`, `activity-lang.hpp`)

The events waiting in the scheduler are dispatched in any order, and the chains activated thereby
are performed concurrently, one Activity after the other. The only access to the state of the
environment is through the context: an Activity may post an event for another Activity. -/

namespace Lumiera.Vault.Gear

/-- Limit timespan of a deadline into the future. -/
def FUTURE_PLANNING_LIMIT : Int := 20000000

/-- A point in time, as used by the scheduler. -/
abbrev SchedTime := { t : Int // Lib.Time.MIN ≤ t }

instance (n : Nat) : OfNat SchedTime n :=
  ⟨⟨n, le_trans (show Lib.Time.MIN ≤ 0 by decide) (Int.natCast_nonneg n)⟩⟩

/-- What to dispatch; together with a record of the `NOTIFY` which caused it. -/
structure Signal where
  chain : Addr
  source : Option Addr
  deriving DecidableEq, Repr

/-- The parameters passed when invoking the functor of a job. -/
structure JobCall where
  task : Nat
  nominalTime : Int
  w1 : Nat
  w2 : Nat
  deriving DecidableEq, Repr

/-- **The effect of an Activity**: how to proceed, events posted, and the job invoked. -/
structure Activation where
  res : Proc
  posted : List (ActivationEvent Signal)
  job : Option JobCall

/-- Nothing to do but to indicate how to proceed. -/
def Activation.of (res : Proc) : Activation := ⟨res, [], none⟩

/-! ## The execution context -/

/-- A regular time is not one of the border conditions. -/
def isRegular (t : Int) : Bool := Lib.Time.MIN < t && t < Lib.Time.MAX

/-- `refineTo`: an event for another Activity, otherwise like the given one. -/
def ActivationEvent.refineTo {Target : Type} (rootEvent : ActivationEvent Target) (target : Target)
    (chain : Activity) (start dead : Int) : ActivationEvent Target :=
  { rootEvent with
    activity := target
    starting := chain.constrainedStart (if isRegular start then start else rootEvent.starting)
    deadline := chain.constrainedDeath (if isRegular dead then dead else rootEvent.deadline) }

/-- `sanityCheck`: the event has a start time and a deadline, which is not too far in the future. -/
def sanityCheck {Target : Type} (now : Int) (event : ActivationEvent Target) : Bool :=
  event.starting ≠ Lib.Time.ANYTIME && event.deadline ≠ Lib.Time.NEVER &&
    event.deadline - now ≤ FUTURE_PLANNING_LIMIT

namespace Memory

variable (mem : Memory)

/-- `post`: enqueue for time-bound execution. An exception ends the chain which posts the event. -/
def post (rootEvent : ActivationEvent Signal) (now start dead : Int) (signal : Signal) :
    Activation :=
  match mem[signal.chain]? with
  | none => .of .HALT
  | some chain =>
    let chainEvent := rootEvent.refineTo signal chain start dead
    if sanityCheck now chainEvent then ⟨.PASS, [chainEvent], none⟩ else .of .HALT

/-! ## Activities -/

/-- `invokeFunktor`: the job may fail. The arguments are found in the `FEED` which comes next. -/
def invokeFunktor (next : Option Addr) (task : Nat) (time : Int) (completed : Bool) : Activation :=
  match next.bind fun feed => mem[feed]? with
  | some ⟨.FEED one two, _⟩ =>
    ⟨if completed then .PASS else .HALT, [], some ⟨task, time, one, two⟩⟩
  | _ => .of .HALT

/-- `postNotify`: a Gate is notified not before the given time, and until its deadline. -/
def postNotify (notify : Addr) (target : Option Addr) (timing : Int)
    (rootEvent : ActivationEvent Signal) (now : Int) : Activation :=
  match target with
  | none => .of .HALT
  | some target =>
    let condition := mem.condition? target
    let startHint := condition.elim now fun _ => timing
    let deadline := condition.elim Lib.Time.NEVER (·.dead)
    mem.post rootEvent now startHint deadline ⟨target, some notify⟩

/-- **Activate** an Activity (`activate`). The job is completed, or it fails. -/
def activate (a : Addr) (rootEvent : ActivationEvent Signal) (now : Int) (completed : Bool) :
    Activation :=
  match mem[a]? with
  | none => .of .HALT
  | some ⟨verb, next⟩ =>
    match verb with
    | .INVOKE task time => mem.invokeFunktor next task time completed
    | .NOTIFY target timing => mem.postNotify a target timing rootEvent now
    | .POST timeWindow => mem.post rootEvent now timeWindow.life timeWindow.dead ⟨a, none⟩
    | .GATE condition => .of (condition.checkGate now)
    | .WORKSTART | .WORKSTOP | .FEED _ _ | .TICK => .of .PASS

/-- **Dispatch** an event (`dispatch`): this is the way how a Gate receives notifications. -/
def dispatch (event : ActivationEvent Signal) (now : Int) (completed : Bool) :
    Activation × Memory :=
  let a := event.activity.chain
  match mem[a]? with
  | some ⟨.POST _, _⟩ | some ⟨.FEED _ _, _⟩ => (.of .PASS, mem)
  | some ⟨.GATE condition, _⟩ =>
    let (res, condition) := condition.receiveGateNotification now
    (.of res, mem.setVerb a (.GATE condition))
  | _ => (mem.activate a event now completed, mem)

end Memory

/-! ## Chains at work -/

/-- A chain which is activated, with the next Activity to perform. -/
structure ActiveChain where
  chain : Addr
  rootEvent : ActivationEvent Signal

/-- A record of an Activity performed; on dispatch of an event, or as part of a chain. -/
structure Happening where
  act : Addr
  event : Option (ActivationEvent Signal)
  job : Option JobCall
  res : Proc

/-- **The environment for execution**: what was built, events waiting, and chains which are active,
together with a record of the Terms posted and of all that happened. -/
structure Execution where
  mem : Memory
  terms : List Term
  links : List TermLink
  posted : List Nat
  pending : List (ActivationEvent Signal)
  running : List ActiveChain
  trace : List Happening

/-- What can be done to build Terms and what can happen to perform them. -/
inductive ExecutionOp
  | buildCalculationJob (job : Job) (start dead : Int)
  | linkToSuccessor (pred succ : Nat) (unlimitedTime : Bool)
  | post (term : Nat) (start dead : Int) (manID : ManifestationID) (isCompulsory : Bool)
      (now : SchedTime)
  /-- One of the events waiting is dispatched. -/
  | dispatch (event : Nat) (now : SchedTime) (completed : Bool)
  /-- One of the events waiting is discarded. -/
  | discard (event : Nat)
  /-- The next Activity of one of the active chains is performed. -/
  | activate (chain : Nat) (now : SchedTime) (completed : Bool)

namespace Execution

/-- Nothing built. -/
def initial : Execution := ⟨[], [], [], [], [], [], []⟩

variable (s : Execution)

/-- Proceed with the next Activity of a chain, unless there is none or the chain is aborted. -/
def follow (a : Addr) (rootEvent : ActivationEvent Signal) (res : Proc) : List ActiveChain :=
  if res = .PASS then (s.mem.next a).toList.map (⟨·, rootEvent⟩) else []

/-- Something can be built or happen. -/
def step : ExecutionOp → Option Execution
  | .buildCalculationJob job start dead => do
      let (term, mem) ← s.mem.buildCalculationJob job start dead
      some { s with mem := mem, terms := s.terms ++ [term] }
  | .linkToSuccessor pred succ unlimitedTime => do
      let (notify, mem) ← s.mem.appendNotificationTo (← s.terms[pred]?) (← s.terms[succ]?)
        unlimitedTime
      some { s with mem := mem, links := s.links ++ [⟨pred, succ, notify⟩] }
  | .post term start dead manID isCompulsory now => do
      let post := (← s.terms[term]?).post_
      let act ← s.mem[post]?
      let event := ⟨⟨post, none⟩, act.constrainedStart start, act.constrainedDeath dead, manID,
        isCompulsory⟩
      if sanityCheck now event then
        some { s with posted := s.posted ++ [term], pending := s.pending ++ [event] }
      else none
  | .dispatch event now completed => do
      let event' ← s.pending[event]?
      let (activation, mem) := s.mem.dispatch event' now completed
      some { s with
        mem := mem
        pending := s.pending.eraseIdx event ++ activation.posted
        running := s.running ++ s.follow event'.activity.chain event' activation.res
        trace := s.trace ++
          [⟨event'.activity.chain, some event', activation.job, activation.res⟩] }
  | .discard event => do
      let _ ← s.pending[event]?
      some { s with pending := s.pending.eraseIdx event }
  | .activate chain now completed => do
      let active ← s.running[chain]?
      let activation := s.mem.activate active.chain active.rootEvent now completed
      some { s with
        pending := s.pending ++ activation.posted
        running := s.running.eraseIdx chain ++
          s.follow active.chain active.rootEvent activation.res
        trace := s.trace ++ [⟨active.chain, none, activation.job, activation.res⟩] }

/-- The environment at work. -/
def machine : Machine Execution ExecutionOp := .ofFun initial step

/-- **All Terms are wired up before anything is posted**, and each one is posted once. -/
def WiredBeforehand : ExecutionOp → Prop
  | .buildCalculationJob .. | .linkToSuccessor .. => s.posted = []
  | .post term .. => term ∉ s.posted
  | _ => True

instance (op : ExecutionOp) : Decidable (WiredBeforehand s op) := by
  cases op <;> unfold WiredBeforehand <;> infer_instance

end Execution

end Lumiera.Vault.Gear
