import Mathlib.Data.Finset.Basic
import Lumiera.Base.PriorityQueue
import Lumiera.Lib.Time.TimeValue

/-! # Scheduler Layer-1: time based dispatch (`vault/gear/scheduler-invocation.hpp`)

New entries are passed in through the entrance queue, and wait in the priority queue for their start
time. Entries refer to an activity, which is left open here. The priority queue is any one ordered
by start time; the empty marker is modelled as `none`. Times are given in µ-ticks. -/

namespace Lumiera.Vault.Gear

/-- The ID of a manifestation of the schedule; zero for the default, which is always active. -/
abbrev ManifestationID := Nat

/-- **An event to be scheduled.** -/
structure ActivationEvent (Activity : Type) where
  activity : Activity
  starting : Int
  deadline : Int
  manifestation : ManifestationID
  isCompulsory : Bool
  deriving DecidableEq, Repr

/-- A list can be used as priority queue. -/
instance {Activity : Type} [DecidableEq Activity] :
    PriorityQueue (List (ActivationEvent Activity))
      (ActivationEvent.starting : ActivationEvent Activity → Int) :=
  .ofList _

/-- **Layer-1**, with the priority queue `Q`. -/
structure SchedulerInvocation (Q Activity : Type) where
  /-- The entrance queue. -/
  instruct_ : List (ActivationEvent Activity)
  priority_ : Q
  allowed_ : Finset ManifestationID

namespace SchedulerInvocation

variable {Q Activity : Type}
variable [PriorityQueue Q (ActivationEvent.starting : ActivationEvent Activity → Int)]
variable (s : SchedulerInvocation Q Activity)

/-- An empty schedule. -/
def empty : SchedulerInvocation Q Activity := ⟨[], PriorityQueue.empty, ∅⟩

/-- Accept an event for time-bound execution. -/
def instruct (actEvent : ActivationEvent Activity) : SchedulerInvocation Q Activity :=
  { s with instruct_ := s.instruct_ ++ [actEvent] }

/-- Forcibly clear out the schedule. -/
def discardSchedule : SchedulerInvocation Q Activity :=
  { s with instruct_ := [], priority_ := PriorityQueue.empty }

/-- Pick up all new events from the entrance queue. -/
def feedPrioritisation : SchedulerInvocation Q Activity :=
  { s with instruct_ := [], priority_ := s.instruct_.foldl PriorityQueue.push s.priority_ }

/-- Feed an event directly into time prioritisation. -/
def feedDirectly (actEvent : ActivationEvent Activity) : SchedulerInvocation Q Activity :=
  { s with priority_ := PriorityQueue.push s.priority_ actEvent }

/-- The most urgent element. -/
def peekHead : Option (ActivationEvent Activity) := PriorityQueue.top? s.priority_

/-- Retrieve the entry with earliest start time. -/
def pullHead : Option (ActivationEvent Activity) × SchedulerInvocation Q Activity :=
  let head := s.peekHead
  if head.isSome then (head, { s with priority_ := PriorityQueue.pop s.priority_ })
  else (head, s)

/-- Enable entries marked with this ID; the default ID needs not be enabled. -/
def activate (manID : ManifestationID) : SchedulerInvocation Q Activity :=
  if manID ≠ 0 then { s with allowed_ := insert manID s.allowed_ } else s

/-- Disable entries marked with this ID. -/
def drop (manID : ManifestationID) : SchedulerInvocation Q Activity :=
  { s with allowed_ := s.allowed_.erase manID }

/-! ## Query functions -/

/-- Is there work to do right now? -/
def isDue (now : Int) : Bool := s.peekHead.any fun head => head.starting ≤ now

/-- Did the activity at scheduler head miss its deadline? -/
def isMissed (now : Int) : Bool := s.peekHead.any fun head => now > head.deadline

/-- Shall activities with this ID be processed? -/
def isActivated (manID : ManifestationID) : Bool := manID = 0 || manID ∈ s.allowed_

/-- Shall the activity at scheduler head be discarded? -/
def isOutdated (now : Int) : Bool :=
  s.isMissed now || s.peekHead.any fun head => !s.isActivated head.manifestation

/-- Is there a compulsory activity with missed deadline at scheduler head? -/
def isOutOfTime (now : Int) : Bool :=
  s.isMissed now && s.peekHead.any fun head =>
    head.isCompulsory && s.isActivated head.manifestation

/-- Is there nothing in either queue? -/
def isEmpty : Bool := s.instruct_.isEmpty && s.peekHead.isNone

/-- An entry which is not to be processed any more. -/
def Outdated (now : Int) (e : ActivationEvent Activity) : Prop :=
  now > e.deadline ∨ s.isActivated e.manifestation = false

/-- An entry which must not be dropped. -/
def Imperative (e : ActivationEvent Activity) : Prop :=
  e.isCompulsory = true ∧ s.isActivated e.manifestation = true

variable {s}

theorem isDue_iff {now : Int} : s.isDue now = true ↔ ∃ head, s.peekHead = some head ∧ head.starting ≤ now := by
  cases h : s.peekHead with
  | none => simp [isDue, h]
  | some head => simp [isDue, h]

theorem isOutdated_iff {now : Int} :
    s.isOutdated now = true ↔ ∃ head, s.peekHead = some head ∧ s.Outdated now head := by
  cases h : s.peekHead with
  | none => simp [isOutdated, isMissed, h]
  | some head => simp [isOutdated, isMissed, h, Outdated]

theorem isOutOfTime_iff {now : Int} : s.isOutOfTime now = true ↔ ∃ head, s.peekHead = some head ∧
    now > head.deadline ∧ s.Imperative head := by
  cases h : s.peekHead with
  | none => simp [isOutOfTime, isMissed, h]
  | some head => simp [isOutOfTime, isMissed, h, Imperative]

variable (s)

/-! ## What is in the queues -/

/-- All entries waiting, in either queue. -/
def pending : Multiset (ActivationEvent Activity) :=
  (s.instruct_ : Multiset (ActivationEvent Activity)) + PriorityQueue.content s.priority_

variable {s}

@[simp] theorem content_feedPrioritisation : PriorityQueue.content s.feedPrioritisation.priority_ = s.pending := by
  rw [feedPrioritisation, PriorityQueue.content_foldl_push, add_comm]
  rfl

@[simp] theorem pending_feedPrioritisation : s.feedPrioritisation.pending = s.pending := by
  rw [pending, content_feedPrioritisation, feedPrioritisation]
  simp

@[simp] theorem pending_discardSchedule : s.discardSchedule.pending = 0 := by
  rw [pending, discardSchedule, PriorityQueue.content_empty]
  rfl

@[simp] theorem pending_instruct (e : ActivationEvent Activity) : (s.instruct e).pending = e ::ₘ s.pending := by
  rw [pending, pending, instruct, ← Multiset.coe_add, Multiset.coe_singleton, add_right_comm,
    add_comm, Multiset.singleton_add]

@[simp] theorem pending_feedDirectly (e : ActivationEvent Activity) :
    (s.feedDirectly e).pending = e ::ₘ s.pending := by
  rw [pending, pending, feedDirectly, PriorityQueue.content_push, Multiset.add_cons]

theorem pullHead_of_peekHead {head : ActivationEvent Activity} (h : s.peekHead = some head) :
    s.pullHead = (some head, { s with priority_ := PriorityQueue.pop s.priority_ }) := by
  rw [pullHead, h]
  rfl

theorem pullHead_of_none (h : s.peekHead = none) : s.pullHead = (none, s) := by
  rw [pullHead, h]
  rfl

theorem content_pullHead : PriorityQueue.content s.priority_ =
    (s.pullHead.1.toList : Multiset (ActivationEvent Activity)) +
      PriorityQueue.content s.pullHead.2.priority_ := by
  cases h : s.peekHead with
  | none => simp [pullHead_of_none h]
  | some head =>
    rw [pullHead_of_peekHead h, PriorityQueue.content_pop s.priority_ head h]
    rfl

@[simp] theorem instruct_pullHead : s.pullHead.2.instruct_ = s.instruct_ := by
  cases h : s.peekHead with
  | none => rw [pullHead_of_none h]
  | some head => rw [pullHead_of_peekHead h]

theorem pending_pullHead : s.pending =
    (s.pullHead.1.toList : Multiset (ActivationEvent Activity)) + s.pullHead.2.pending := by
  rw [pending, pending, content_pullHead, instruct_pullHead, add_left_comm]

end SchedulerInvocation

end Lumiera.Vault.Gear
