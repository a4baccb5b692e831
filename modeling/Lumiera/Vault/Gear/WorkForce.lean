import Lumiera.Base.Machine
import Lumiera.Vault.Gear.Activity
import Lumiera.Vault.Gear.SchedulerCommutator

/-! # The workers and the grooming token (`work-force.hpp`, `scheduler-commutator.hpp`)

Each worker repeatedly invokes `dispatchCapacity` and acts upon the result. The steps of a thread
are those between which other threads may act: each one accesses the grooming token at most once.
What the thread finds in the queues, the capacity assigned to it, and the outcome of the activities
performed are left open. Beside the workers there are client threads, which use the token directly or
through a scope guard. -/

namespace Lumiera.Vault.Gear

/-- Allocation of capacity (`LoadController::Capacity`). -/
inductive Capacity
  | DISPATCH | TENDNEXT | SPINTIME | NEARTIME | WORKTIME | IDLEWAIT
  deriving DecidableEq, Repr

/-- The two occasions where a worker tends to the input queue and may be delayed. -/
inductive Stage
  | incoming | outgoing
  deriving DecidableEq, Repr

/-! ## Threads -/

/-- **Where a thread is.** The scope guards in effect are given from the inside out, each one with its
flag `handledActively_`. -/
inductive Pc
  /-- A client thread. -/
  | client (guards : List Bool)
  /-- A worker which is not running, or not yet. -/
  | terminated
  /-- `pullWork`: about to invoke `doWork`. -/
  | pullWork
  /-- `maybeFeed`. -/
  | maybeFeed (stage : Stage)
  /-- `feedPrioritisation` within `maybeFeed`. -/
  | feeding (stage : Stage)
  /-- About to classify the capacity and invoke `scatteredDelay`. -/
  | delaying (stage : Stage)
  /-- `doTendNextHead`. -/
  | tendNextHead
  /-- `tendNext` within `doTendNextHead`. -/
  | tending
  /-- `doTargetedSleep`. -/
  | targetedSleep
  /-- Asleep within `doTargetedSleep`. -/
  | sleeping
  /-- `findWork`. -/
  | findWork
  /-- Retrieving work within `findWork`. -/
  | retrieving
  /-- `executeActivity`. -/
  | executing (guards : List Bool)
  /-- The loop within the constructor of the scope guard, of a worker or a client. -/
  | guardWait (atWork : Bool) (guards : List Bool)
  /-- The sequence of steps ended with this result. -/
  | completed (lastResult : Proc)
  /-- In the exception handler. -/
  | unwinding
  /-- `doWork` returned this result. -/
  | returned (res : Proc)
  | contentionWait
  | idleWait
  /-- The worker is about to invoke the thread-exit hook and to terminate. -/
  | exiting (isFailure : Bool)
  deriving DecidableEq, Repr

/-- The thread accesses what is protected by the token. -/
def Pc.isGrooming : Pc → Bool
  | .feeding _ | .tending | .retrieving | .executing (_ :: _) | .client (_ :: _) => true
  | _ => false

/-- The worker sleeps, is sent idle, or has left its loop. -/
def Pc.isResting : Pc → Bool
  | .sleeping | .guardWait _ _ | .contentionWait | .idleWait | .exiting _ | .terminated => true
  | _ => false

/-- **The state of a thread.** -/
structure ThreadState where
  pc : Pc
  /-- Emergency break to trigger cooperative halt. -/
  emergency : Bool
  idleCycles : Nat
  kickLevel : Nat
  deriving DecidableEq, Repr

namespace ThreadState

/-- A worker just started. -/
def start : ThreadState := ⟨.pullWork, false, 0, 0⟩

/-- Continue elsewhere. -/
def goto (w : ThreadState) (pc : Pc) : ThreadState := { w with pc := pc }

end ThreadState

/-- What a thread does, with what it finds. -/
inductive Move
  /-- A worker is started. -/
  | spawn
  /-- The emergency break of a worker is triggered. -/
  | brake
  /-- Carry on to the next step. -/
  | proceed
  /-- An exception is thrown. -/
  | raise
  /-- Is there pending input? -/
  | pendingInput (pending : Bool)
  /-- The capacity is classified. -/
  | capacity (capacity : Capacity)
  /-- Was the next head tended for already? -/
  | tended (tended : Bool)
  /-- Was there work due? -/
  | found (found : Bool)
  /-- An activity invokes the λ-work of the context. -/
  | work
  /-- The activities were performed with this result. -/
  | executed (res : Proc)
  | enterGuard
  | leaveGuard
  /-- A client tries to acquire the token. -/
  | acquire
  /-- A client drops the token. -/
  | drop
  deriving DecidableEq, Repr

/-! ## Steps of a thread -/

section Steps

variable {ThreadID : Type} [DecidableEq ThreadID]

namespace SchedulerCommutator

/-- Check for the token, or else try to acquire it. -/
def holdsOrAcquires (s : SchedulerCommutator ThreadID) (thisThread : ThreadID) :
    Bool × SchedulerCommutator ThreadID :=
  if s.holdsGroomingToken thisThread then (true, s) else s.acquireGroomingToken thisThread

/-- `ensureDroppedGroomingToken` -/
def ensureDropped (s : SchedulerCommutator ThreadID) (thisThread : ThreadID) :
    SchedulerCommutator ThreadID :=
  if s.holdsGroomingToken thisThread then ⟨none⟩ else s

/-- The destructor of a scope guard. -/
def leaveGuard (s : SchedulerCommutator ThreadID) (thisThread : ThreadID)
    (handledActively : Bool) : SchedulerCommutator ThreadID :=
  if handledActively then s.ensureDropped thisThread else s

end SchedulerCommutator

open SchedulerCommutator

/-- `doWork` returned: what the loop within `pullWork` does with the result. -/
def afterWork (DISMISS_CYCLES CONTEND_SATURATION : Nat) (w : ThreadState) (res : Proc) :
    ThreadState :=
  if w.emergency then w.goto (.exiting false)
  else if res = .KICK then
    { w with
      pc := .contentionWait
      kickLevel := if w.kickLevel < CONTEND_SATURATION then w.kickLevel + 1 else w.kickLevel
      idleCycles := 0 }
  else
    let w := { w with kickLevel := w.kickLevel / 2 }
    if res = .WAIT then
      if w.idleCycles + 1 < DISMISS_CYCLES then
        { w with pc := .idleWait, idleCycles := w.idleCycles + 1 }
      else { w with pc := .exiting false, idleCycles := w.idleCycles + 1 }
    else if res = .PASS then { w with pc := .pullWork, idleCycles := 0 }
    else { w with pc := .exiting false, idleCycles := 0 }

/-- Carry on to the next step. -/
def proceed (DISMISS_CYCLES CONTEND_SATURATION : Nat) (s : SchedulerCommutator ThreadID)
    (thisThread : ThreadID) (w : ThreadState) : Option (SchedulerCommutator ThreadID × ThreadState) :=
  match w.pc with
  | .pullWork => some (s, w.goto (.maybeFeed .incoming))
  | .feeding stage => some (s, w.goto (.delaying stage))
  | .tending => some (s, w.goto .targetedSleep)
  | .targetedSleep => some (s.ensureDropped thisThread, w.goto .sleeping)
  | .sleeping => some (s, w.goto (.completed .SKIP))
  | .findWork =>
    let r := s.holdsOrAcquires thisThread
    some (r.2, w.goto (if r.1 then .retrieving else .completed .KICK))
  | .guardWait atWork guards =>
    let r := s.acquireGroomingToken thisThread
    some (r.2, if r.1 then
        w.goto (if atWork then .executing (true :: guards) else .client (true :: guards))
      else w)
  | .completed lastResult =>
    -- SKIP signals early exit, which is acquitted here
    let res := if lastResult = .SKIP then .PASS else lastResult
    some (if res ≠ .PASS then s.ensureDropped thisThread else s, w.goto (.returned res))
  | .unwinding => some (s.ensureDropped thisThread, w.goto (.exiting true))
  | .returned res => some (s, afterWork DISMISS_CYCLES CONTEND_SATURATION w res)
  | .contentionWait => some (s, w.goto .pullWork)
  | .idleWait => some (s, w.goto .pullWork)
  | .exiting _ => some (s, w.goto .terminated)
  | _ => none

/-- An exception within `dispatchCapacity`, leaving the scopes of the guards. -/
def raise (s : SchedulerCommutator ThreadID) (thisThread : ThreadID) (w : ThreadState) :
    Option (SchedulerCommutator ThreadID × ThreadState) :=
  match w.pc with
  | .maybeFeed _ | .feeding _ | .delaying _ | .tendNextHead | .tending | .targetedSleep
  | .findWork | .retrieving => some (s, w.goto .unwinding)
  | .executing guards =>
    some (guards.foldl (fun s g => s.leaveGuard thisThread g) s, w.goto .unwinding)
  | _ => none

/-- `scatteredDelay` with the given capacity. -/
def scatteredDelay (stage : Stage) : Capacity → Pc
  | .DISPATCH => match stage with
    | .incoming => .findWork
    | .outgoing => .completed .PASS
  | .SPINTIME => .completed .SKIP
  | .IDLEWAIT => .completed .WAIT
  | .TENDNEXT => .tendNextHead
  | _ => .targetedSleep

/-- Construct a scope guard. -/
def enterGuard (s : SchedulerCommutator ThreadID) (thisThread : ThreadID) (atWork : Bool)
    (guards : List Bool) : Pc :=
  if s.holdsGroomingToken thisThread then
    if atWork then .executing (false :: guards) else .client (false :: guards)
  else .guardWait atWork guards

/-- **A step of a thread**, with its effect on the token. -/
def threadStep (DISMISS_CYCLES CONTEND_SATURATION : Nat) (s : SchedulerCommutator ThreadID)
    (thisThread : ThreadID) (w : ThreadState) (move : Move) :
    Option (SchedulerCommutator ThreadID × ThreadState) :=
  match move, w.pc with
  | .proceed, _ => proceed DISMISS_CYCLES CONTEND_SATURATION s thisThread w
  | .raise, _ => raise s thisThread w
  | .brake, _ => some (s, { w with emergency := true })
  | .spawn, .terminated => some (s, .start)
  | .pendingInput pending, .maybeFeed stage =>
    if pending then
      let r := s.holdsOrAcquires thisThread
      some (r.2, w.goto (if r.1 then .feeding stage else .delaying stage))
    else some (s, w.goto (.delaying stage))
  | .capacity c, .delaying stage => some (s, w.goto (scatteredDelay stage c))
  | .tended tended, .tendNextHead =>
    if tended then some (s, w.goto .targetedSleep)
    else
      let r := s.holdsOrAcquires thisThread
      some (r.2, w.goto (if r.1 then .tending else .targetedSleep))
  | .found found, .retrieving =>
    some (s, w.goto (if found then .executing [] else .completed .KICK))
  | .work, .executing [] => do return (← s.dropGroomingToken thisThread, w)
  | .executed res, .executing [] =>
    some (s, w.goto (if res = .PASS then .maybeFeed .outgoing else .completed res))
  | .enterGuard, .executing guards => some (s, w.goto (enterGuard s thisThread true guards))
  | .leaveGuard, .executing (g :: guards) =>
    some (s.leaveGuard thisThread g, w.goto (.executing guards))
  | .enterGuard, .client guards => some (s, w.goto (enterGuard s thisThread false guards))
  | .leaveGuard, .client (g :: guards) =>
    some (s.leaveGuard thisThread g, w.goto (.client guards))
  | .acquire, .client [] => some ((s.acquireGroomingToken thisThread).2, w)
  | .drop, .client [] => do return (← s.dropGroomingToken thisThread, w)
  | _, _ => none

end Steps

/-! ## All threads -/

/-- **The work force** and the client threads, sharing the token. -/
structure Grooming (ThreadID : Type) where
  layer2 : SchedulerCommutator ThreadID
  threads : ThreadID → ThreadState

namespace Grooming

variable {ThreadID : Type} [DecidableEq ThreadID]

/-- At the start no one holds the token; some threads are clients, the others can become workers. -/
def initial (isClient : ThreadID → Bool) : Grooming ThreadID where
  layer2 := ⟨none⟩
  threads t := ⟨if isClient t then .client [] else .terminated, false, 0, 0⟩

/-- One of the threads performs a step. -/
def step (DISMISS_CYCLES CONTEND_SATURATION : Nat) (s : Grooming ThreadID) (a : ThreadID × Move) :
    Option (Grooming ThreadID) := do
  let r ← threadStep DISMISS_CYCLES CONTEND_SATURATION s.layer2 a.1 (s.threads a.1) a.2
  return ⟨r.1, Function.update s.threads a.1 r.2⟩

/-- Any interleaving of steps of any threads. -/
def machine (DISMISS_CYCLES CONTEND_SATURATION : Nat) (isClient : ThreadID → Bool) :
    Machine (Grooming ThreadID) (ThreadID × Move) :=
  .ofFun (initial isClient) (step DISMISS_CYCLES CONTEND_SATURATION)

end Grooming

end Lumiera.Vault.Gear
