import Lumiera.Lib.Time.TimeValue

/-! # Building blocks of the schedule (`vault/gear/activity.hpp`)

An Activity is a record with a verb, the arguments for this verb, and a link to the next Activity of
the chain. Records are identified by an address. -/

namespace Lumiera.Vault.Gear

/-- Result codes to coordinate further processing (`activity::Proc`). -/
inductive Proc
  | PASS | SKIP | WAIT | KICK | HALT
  deriving DecidableEq, Repr

/-! ## The condition of a Gate -/

/-- Access gate condition to evaluate. -/
structure Condition where
  /-- Held back while `rest > 0`. -/
  rest : Int
  dead : Int
  deriving DecidableEq, Repr

namespace Condition

variable (c : Condition)

/-- Is the deadline reached? -/
def isDead (now : Int) : Bool := c.dead ≤ now

/-- Are there prerequisites left? -/
def isHold : Bool := c.rest > 0

/-- May the Gate be passed? -/
def isFree (now : Int) : Bool := !(c.isHold || c.isDead now)

/-- One more prerequisite. -/
def incDependencies : Condition := { c with rest := c.rest + 1 }

/-- Close the Gate for good, by moving the deadline before any time. -/
def lockPermanently : Condition := { c with dead := Lib.Time.MIN }

/-- **Activation of a Gate** (`checkGate`): it is passed when it is alive, with nothing left to wait
for. -/
def checkGate (now : Int) : Proc :=
  if c.isDead now then .SKIP
  else if c.isHold then .SKIP
  else .PASS

/-- **A notification received by a Gate** (`receiveGateNotification`). It counts down, and the one
which opens the Gate also locks it. -/
def receiveGateNotification (now : Int) : Proc × Condition :=
  if c.rest > 0 then
    let c := { c with rest := c.rest - 1 }
    if c.isFree now then (.PASS, c.lockPermanently)
    else (.SKIP, c)
  else (.SKIP, c)

variable {c} {now : Int}

theorem isFree_iff : c.isFree now = true ↔ c.rest ≤ 0 ∧ now < c.dead := by
  simp [isFree, isHold, isDead]

theorem checkGate_eq_PASS_iff : c.checkGate now = .PASS ↔ c.rest ≤ 0 ∧ now < c.dead := by
  simp only [checkGate, isDead, isHold, decide_eq_true_eq]
  split_ifs <;> simp <;> omega

end Condition

/-! ## Activities -/

/-- Where an Activity is stored. -/
abbrev Addr := Nat

/-- Time window to define for activation. -/
structure TimeWindow where
  life : Int
  dead : Int
  deriving DecidableEq, Repr

/-- **The verbs with their arguments.** A job is known by its functor, the nominal time, and the two
parts of the invocation key; the parameters for observation of work timing are left out. -/
inductive Verb
  /-- Dispatch a JobFunctor into a worker thread. -/
  | INVOKE (task : Nat) (time : Int)
  /-- Signal start of some processing. -/
  | WORKSTART
  /-- Correspondingly signal end of some processing. -/
  | WORKSTOP
  /-- Push a message to another Activity. -/
  | NOTIFY (target : Option Addr) (timing : Int)
  /-- Probe window and count-down. -/
  | GATE (condition : Condition)
  /-- Post a message providing a chain of further time-bound Activities. -/
  | POST (timeWindow : TimeWindow)
  /-- Supply additional payload data for a preceding Activity. -/
  | FEED (one two : Nat)
  /-- Internal engine heart beat. -/
  | TICK
  deriving DecidableEq, Repr

/-- An Activity within a chain. -/
structure Activity where
  verb : Verb
  next : Option Addr
  deriving DecidableEq, Repr

namespace Verb

/-- Is this a `POST`, and with which window? -/
def timeWindow? : Verb → Option TimeWindow
  | POST timeWindow => some timeWindow
  | _ => none

/-- Is this a `GATE`, and in which condition? -/
def condition? : Verb → Option Condition
  | GATE condition => some condition
  | _ => none

/-- The verb without the condition of a Gate, which is the only part that changes over time. -/
def fixed : Verb → Verb
  | GATE _ => GATE ⟨0, 0⟩
  | verb => verb

theorem fixed_eq_gate_iff {verb : Verb} {c : Condition} :
    verb.fixed = .GATE c ↔ c = ⟨0, 0⟩ ∧ ∃ condition, verb = .GATE condition := by
  cases verb <;> simp [fixed, eq_comm]

end Verb

namespace Activity

/-- Constrain by the start time of a `POST`. -/
def constrainedStart (act : Activity) (start : Int) : Int :=
  act.verb.timeWindow?.elim start fun window => max start window.life

/-- Constrain by the deadline of a `POST`. -/
def constrainedDeath (act : Activity) (death : Int) : Int :=
  act.verb.timeWindow?.elim death fun window => min death window.dead

end Activity

end Lumiera.Vault.Gear
