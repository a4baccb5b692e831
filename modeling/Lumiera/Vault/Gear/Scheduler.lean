import Mathlib.Data.List.TakeWhile
import Lumiera.Vault.Gear.ActivityLang
import Lumiera.Vault.Gear.BlockFlow
import Lumiera.Vault.Gear.SchedulerCommutator

/-! # Storage used by the schedule (`vault/gear/scheduler.hpp`)

Events in the queues refer to Activities, which are placed into the Epochs of the allocator. The
duty cycle discards outdated entries at the queue head, and then Epochs beyond their deadline. Each
of these operations is performed by a thread holding the grooming token; allocation and posting may
happen in between, in any order. Threads and the load control are left out; of an Activity, the verb
is known with its time window, which determines the deadline of the events posted for it. -/

namespace Lumiera.Vault.Gear

open List

/-- Period of the regular scheduler tick. -/
def DUTY_CYCLE_PERIOD : Int := 50000

/-- Maximum slip tolerated on duty-cycle start. -/
def DUTY_CYCLE_TOLERANCE : Int := 200000

/-- The scope of activity currently in the works. -/
def WORK_HORIZON : Int := 5000

/-- The verb with the time window of a Term: for the `POST`, and for the `GATE`. -/
def Verb.windowed (start dead : Int) : Verb → Verb
  | .POST _ => .POST ⟨start, dead⟩
  | .GATE condition => .GATE ⟨condition.rest, dead⟩
  | verb => verb

/-- An Activity allocated, with the deadline which was given to `until`. -/
structure Allocated where
  place : Place
  dead : Int
  verb : Verb
  deriving DecidableEq, Repr

namespace Allocated

variable (a : Allocated)

/-- What is stored there; links between Activities are not used here. -/
def activity : Activity := ⟨a.verb, none⟩

/-- An event to activate a Term, as set up by `ScheduleSpec::post`. -/
def event (starting dead : Int) (manID : ManifestationID) (isCompulsory : Bool) : ActivationEvent Place :=
  ⟨a.place, a.activity.constrainedStart starting, a.activity.constrainedDeath dead, manID, isCompulsory⟩

/-- The event posted when this is the target of a `NOTIFY` (`postNotify`). -/
def notifyEvent (rootEvent : ActivationEvent Place) (timing now : Int) : ActivationEvent Place :=
  rootEvent.refineTo a.place a.activity (a.verb.condition?.elim now fun _ => timing)
    (a.verb.condition?.elim Lib.Time.NEVER (·.dead))

/-- The event posted when this is a `POST` within a chain (`postSelf`). -/
def selfEvent (rootEvent : ActivationEvent Place) (window : TimeWindow) : ActivationEvent Place :=
  rootEvent.refineTo a.place a.activity window.life window.dead

end Allocated

/-- **The scheduler**: Layer-1, the allocator, and a record of all Activities allocated. -/
structure Scheduler (Q : Type) where
  layer1_ : SchedulerInvocation Q Place
  mem_ : BlockFlow
  allocated : List Allocated

/-- The operations on the scheduler. -/
inductive SchedulerOp
  /-- Build a Term from some Activities, with its time window. -/
  | buildTerm (start deadline : Int) (activities : List Verb)
  /-- Post one of the Activities allocated thus far; the thread may be holding the grooming token. -/
  | post (act : Nat) (starting dead : Int) (manID : ManifestationID) (isCompulsory : Bool) (now : Int)
      (holding : Bool)
  /-- While an event is processed, a `NOTIFY` posts its target. -/
  | notify (rootEvent : ActivationEvent Place) (target : Nat) (timing now : Int) (holding : Bool)
  /-- While an event is processed, a `POST` posts itself. -/
  | postSelf (rootEvent : ActivationEvent Place) (act : Nat) (now : Int) (holding : Bool)
  /-- A `GATE` receives a notification, and may be locked thereby. -/
  | receiveGateNotification (gate : Nat) (now : Int)
  /-- The storage of an Activity in a recycled Epoch is used for another one. -/
  | reuse (act : Nat) (verb : Verb)
  | handleDutyCycle (now : Int) (forceContinuation : Bool)
  | findWork (now : Int)
  | activate (manID : ManifestationID)
  | drop (manID : ManifestationID)
  | announceLoad (fps : Nat)
  | terminateProcessing

namespace Scheduler

variable {Q : Type} [PriorityQueue Q (ActivationEvent.starting : ActivationEvent Place → Int)]
variable (conf : BlockConfig) (s : Scheduler Q)

/-- A scheduler at rest. -/
def initial : Scheduler Q := ⟨.empty, .initial conf, []⟩

/-- Allocate Activities until the deadline. -/
def allocate (deadline : Int) (activities : List Verb) : Option (List Place × Scheduler Q) := do
  let (handle, mem) ← s.mem_.until deadline
  let (places, mem) := mem.create conf handle activities.length
  let added := (places.zip activities).map fun (place, verb) => ⟨place, deadline, verb⟩
  some (places, { s with mem_ := mem, allocated := s.allocated ++ added })

/-- `postChain`; without a result when the event is not acceptable. -/
def postChain (now : Int) (event : ActivationEvent Place) (holding : Bool) : Option (Scheduler Q) :=
  if sanityCheck now event then
    some { s with layer1_ := if holding then s.layer1_.feedDirectly event else s.layer1_.instruct event }
  else none

/-- Change what is stored for an Activity. -/
def setVerb (act : Nat) (a : Allocated) (verb : Verb) : Scheduler Q :=
  { s with allocated := s.allocated.set act { a with verb := verb } }

/-- **The duty cycle.** When a compulsory entry was missed everything is left as it is; and when the
allocation fails, there is no follow-up tick. -/
def handleDutyCycle (now : Int) (forceContinuation : Bool) : Scheduler Q :=
  let (_, layer1, consistent) := s.layer1_.maintainQueueHead now
  if !consistent then { s with layer1_ := layer1 }
  else
    let s := { s with layer1_ := layer1, mem_ := s.mem_.discardBefore conf now }
    if !s.layer1_.isEmpty || forceContinuation then
      let nextTick := now + if forceContinuation then WORK_HORIZON else DUTY_CYCLE_PERIOD
      let deadline := nextTick + DUTY_CYCLE_TOLERANCE
      match s.allocate conf deadline [.TICK] with
      | none => s
      | some (tickActivity, s) =>
        let tickEvents := tickActivity.map fun place => ⟨place, nextTick, deadline, 0, true⟩
        { s with layer1_ := tickEvents.foldl .feedDirectly s.layer1_ }
    else s

/-- Perform an operation. -/
def step : SchedulerOp → Option (Scheduler Q)
  | .buildTerm start deadline activities =>
      (s.allocate conf deadline (activities.map (·.windowed start deadline))).map (·.2)
  | .post act starting dead manID isCompulsory now holding => do
      s.postChain now ((← s.allocated[act]?).event starting dead manID isCompulsory) holding
  | .notify rootEvent target timing now holding => do
      s.postChain now ((← s.allocated[target]?).notifyEvent rootEvent timing now) holding
  | .postSelf rootEvent act now holding => do
      let a ← s.allocated[act]?
      s.postChain now (a.selfEvent rootEvent (← a.verb.timeWindow?)) holding
  | .receiveGateNotification gate now => do
      let a ← s.allocated[gate]?
      let condition ← a.verb.condition?
      some (s.setVerb gate a (.GATE (condition.receiveGateNotification now).2))
  | .reuse act verb => do
      let a ← s.allocated[act]?
      if a.place.epoch < s.mem_.recycled.length then some (s.setVerb act a verb) else none
  | .handleDutyCycle now forceContinuation => some (s.handleDutyCycle conf now forceContinuation)
  | .findWork now => some { s with layer1_ := (s.layer1_.retrieveWork now []).layer1 }
  | .activate manID => some { s with layer1_ := s.layer1_.activate manID }
  | .drop manID => some { s with layer1_ := s.layer1_.drop manID }
  | .announceLoad fps => some { s with mem_ := s.mem_.announceAdditionalFlow conf fps }
  | .terminateProcessing => some { s with layer1_ := s.layer1_.discardSchedule }

/-- The scheduler at work. -/
def machine : Machine (Scheduler Q) SchedulerOp := .ofFun (initial conf) (step conf)

end Scheduler

/-! ## Places and times -/

variable {now : Int}

namespace BlockFlow

/-- The Activity at this place was allocated in an Epoch which lasts until the deadline. -/
def Holds (flow : BlockFlow) (place : Place) (deadline : Int) : Prop :=
  ∃ d, flow.deadlines[place.epoch]? = some d ∧ deadline ≤ d

/-- The event can not be found any more by the time its Epoch was recycled. -/
def Expired (flow : BlockFlow) (event : ActivationEvent Place) : Prop :=
  ∀ r ∈ flow.recycled[event.activity.epoch]?,
    event.deadline < r.discardedAt ∨ event.deadline < event.starting

/-- This Epoch will be discarded by `discardBefore`. -/
def Discardable (flow : BlockFlow) (now : Int) (nr : Nat) : Prop :=
  flow.recycled.length ≤ nr ∧
    nr < flow.recycled.length + (flow.alloc_.takeWhile fun epoch => !epoch.isAlive now).length

/-- If there is no Epoch yet, the first one is not placed before the deadline. -/
def Spaced (flow : BlockFlow) : Prop := flow.alloc_ = [] → 0 ≤ flow.epochStep_

variable {conf : BlockConfig} {flow flow' : BlockFlow}

theorem Holds.extends {place : Place} {deadline : Int} (h : flow.Holds place deadline)
    (hextends : flow.Extends flow') : flow'.Holds place deadline := by
  obtain ⟨d, hd, hle⟩ := h
  exact ⟨d, hextends.getElem? hd, hle⟩

variable {event : ActivationEvent Place}

theorem Expired.extends (h : flow.Expired event) (hextends : flow.Extends flow') : flow'.Expired event := by
  rw [Expired, hextends.recycled]
  exact h

theorem Expired.of_active (h : flow.recycled.length ≤ event.activity.epoch) : flow.Expired event := by
  intro r hr
  rw [getElem?_eq_none h] at hr
  cases hr

/-- Discarding Epochs is safe for an event which can not be found any more from then on. -/
theorem Expired.discardBefore (h : flow.Expired event) (hholds : flow.Holds event.activity event.deadline)
    (htimely : flow.Discardable now event.activity.epoch → event.deadline = now → now < event.starting) :
    (flow.discardBefore conf now).Expired event := by
  intro r hr
  rw [(discardBefore_spec conf flow now).2] at hr
  by_cases hold : event.activity.epoch < flow.recycled.length
  · rw [getElem?_append_left hold] at hr
    exact h r hr
  -- the Epoch is discarded right now, it is thus beyond its deadline
  rw [getElem?_append_right (by omega), getElem?_map] at hr
  obtain ⟨epoch, hepoch, rfl⟩ := Option.map_eq_some_iff.mp hr
  have hlt := (List.getElem?_eq_some_iff.mp hepoch).1
  have hdead : epoch.deadline ≤ now := by
    have halive := mem_takeWhile_imp (mem_of_getElem? hepoch)
    exact Epoch.deadline_le_of_not_isAlive (by simpa using halive)
  have hat : flow.alloc_[event.activity.epoch - flow.recycled.length]? = some epoch := by
    obtain ⟨rest, hrest⟩ := takeWhile_prefix (l := flow.alloc_)
      fun epoch : Epoch => !epoch.isAlive now
    rw [← hrest, getElem?_append_left hlt]
    exact hepoch
  have hle : event.deadline ≤ epoch.deadline := by
    obtain ⟨d, hd, hle⟩ := hholds
    rw [deadlines, getElem?_append_right (by simpa using hold), length_map,
      getElem?_map, hat] at hd
    cases hd
    exact hle
  show event.deadline < now ∨ event.deadline < event.starting
  by_cases heq : event.deadline = now
  · have := htimely ⟨by omega, by omega⟩ heq
    omega
  · omega

end BlockFlow

/-! ## What is kept by the operations -/

namespace Scheduler

variable {Q : Type} [PriorityQueue Q (ActivationEvent.starting : ActivationEvent Place → Int)]
variable (conf : BlockConfig) (s : Scheduler Q)

/-- The Activity limits the deadline of its events: a `POST` by the time window, and a `GATE` when it is
notified, unless locked. All else falls back to the deadline of the event processed. -/
def limits (a : Allocated) (notified : Bool) : Bool :=
  s.mem_.recycled.length ≤ a.place.epoch &&
    match a.verb with
    | .POST _ => true
    | .GATE condition => notified && isRegular condition.dead
    | _ => false

/-- **An event is timely.** Unless limited by the Activity, the deadline must not be after the one of the
Epoch; and when this Epoch was recycled just at the deadline, the event must not be due by then. -/
def TimelyEvent (a : Allocated) (notified : Bool) (event : ActivationEvent Place) : Prop :=
  (s.limits a notified = false → ∀ d ∈ s.mem_.deadlines[a.place.epoch]?, event.deadline ≤ d) ∧
    ∀ r ∈ s.mem_.recycled[a.place.epoch]?, r.discardedAt = event.deadline → event.deadline < event.starting

/-- **An operation is timely.** An event whose Epoch gets recycled just at its deadline must not be
due by then, and the spacing must not be negative when starting over without any Epoch. -/
def Timely : SchedulerOp → Prop
  | .buildTerm _ _ _ => s.mem_.Spaced
  | .post act starting dead manID isCompulsory _ _ => ∀ a ∈ s.allocated[act]?,
      s.TimelyEvent a false (a.event starting dead manID isCompulsory)
  | .notify rootEvent target timing now _ => ∀ a ∈ s.allocated[target]?,
      s.TimelyEvent a true (a.notifyEvent rootEvent timing now)
  | .postSelf rootEvent act _ _ => ∀ a ∈ s.allocated[act]?, ∀ window ∈ a.verb.timeWindow?,
      s.TimelyEvent a false (a.selfEvent rootEvent window)
  | .handleDutyCycle now _ => (s.layer1_.maintainQueueHead now).2.2 = true →
      (∀ e ∈ (s.layer1_.maintainQueueHead now).2.1.pending,
        s.mem_.Discardable now e.activity.epoch → e.deadline = now → now < e.starting) ∧
      (s.mem_.discardBefore conf now).Spaced
  | _ => True

/-- The time window of a verb is within the deadline, or irregular. -/
def Within (verb : Verb) (dead : Int) : Prop :=
  (∀ window ∈ verb.timeWindow?, window.dead ≤ dead) ∧
    ∀ condition ∈ verb.condition?, isRegular condition.dead = true → condition.dead ≤ dead

/-- **The allocations are sound** with regard to the events waiting. -/
structure Sound (s : Scheduler Q) : Prop where
  ordered : s.mem_.Ordered
  dead : ∀ r ∈ s.mem_.recycled, r.epoch.deadline ≤ r.discardedAt
  allocated : ∀ a ∈ s.allocated, s.mem_.Holds a.place a.dead
  within : ∀ a ∈ s.allocated, s.mem_.recycled.length ≤ a.place.epoch → Within a.verb a.dead
  pending : ∀ e ∈ s.layer1_.pending, s.mem_.Holds e.activity e.deadline
  expired : ∀ e ∈ s.layer1_.pending, s.mem_.Expired e

variable {conf} {s} {t : Scheduler Q}

variable {layer1 : SchedulerInvocation Q Place}

theorem Sound.of_pending (h : s.Sound) (hpending : ∀ e ∈ layer1.pending, e ∈ s.layer1_.pending) :
    Sound { s with layer1_ := layer1 } :=
  ⟨h.ordered, h.dead, h.allocated, h.within, fun e he => h.pending e (hpending e he),
    fun e he => h.expired e (hpending e he)⟩

theorem Sound.of_event (h : s.Sound) {event : ActivationEvent Place}
    (hpending : layer1.pending = event ::ₘ s.layer1_.pending)
    (hholds : s.mem_.Holds event.activity event.deadline) (hexpired : s.mem_.Expired event) :
    Sound { s with layer1_ := layer1 } := by
  refine ⟨h.ordered, h.dead, h.allocated, h.within, ?_, ?_⟩
  · intro e he
    rw [hpending] at he
    rcases Multiset.mem_cons.mp he with rfl | he
    · exact hholds
    · exact h.pending e he
  · intro e he
    rw [hpending] at he
    rcases Multiset.mem_cons.mp he with rfl | he
    · exact hexpired
    · exact h.expired e he

theorem Sound.of_epochStep (h : s.Sound) (epochStep : Int) :
    Sound { s with mem_ := { s.mem_ with epochStep_ := epochStep } } :=
  ⟨h.ordered, h.dead, h.allocated, h.within, h.pending, h.expired⟩

/-- An allocation is sound, and the places are not recycled. -/
theorem Sound.allocate (h : s.Sound) (hspaced : s.mem_.Spaced) {deadline : Int} {activities : List Verb}
    {places : List Place} (hwithin : ∀ verb ∈ activities, Within verb deadline)
    (halloc : s.allocate conf deadline activities = some (places, t)) :
    t.Sound ∧ t.layer1_ = s.layer1_ ∧
      ∀ place ∈ places, t.mem_.Holds place deadline ∧ t.mem_.recycled.length ≤ place.epoch := by
  simp only [Scheduler.allocate, Option.bind_eq_bind, Option.bind_eq_some_iff,
    Option.some.injEq] at halloc
  obtain ⟨⟨handle, mem⟩, huntil, heq⟩ := halloc
  obtain ⟨rfl, rfl⟩ := Prod.mk.inj heq
  obtain ⟨hextends, epoch, hat, hmatch⟩ := BlockFlow.until_spec huntil h.ordered hspaced
  obtain ⟨hcreate, hplaces⟩ :=
    BlockFlow.create_spec conf activities.length (hextends.ordered h.ordered) hat hmatch
  have hall := hextends.trans hcreate
  have hadded : ∀ a ∈ ((BlockFlow.create conf handle mem activities.length).1.zip activities).map
      (fun (place, verb) => Allocated.mk place deadline verb),
      a.place ∈ (BlockFlow.create conf handle mem activities.length).1 ∧ a.dead = deadline ∧
        a.verb ∈ activities := by
    intro a ha
    obtain ⟨⟨place, verb⟩, hmem, rfl⟩ := mem_map.mp ha
    exact ⟨(of_mem_zip hmem).1, rfl, (of_mem_zip hmem).2⟩
  refine ⟨⟨hall.ordered h.ordered, ?_, ?_, ?_, ?_, ?_⟩, rfl, ?_⟩
  · rw [hall.recycled]
    exact h.dead
  · intro a ha
    rcases mem_append.mp ha with ha | ha
    · exact (h.allocated a ha).extends hall
    · obtain ⟨hplace, hdead, -⟩ := hadded a ha
      rw [hdead]
      exact (hplaces a.place hplace).2
  · intro a ha halive
    rcases mem_append.mp ha with ha | ha
    · refine h.within a ha ?_
      rw [← hall.recycled]
      exact halive
    · obtain ⟨-, hdead, hverb⟩ := hadded a ha
      rw [hdead]
      exact hwithin a.verb hverb
  · exact fun e he => (h.pending e he).extends hall
  · exact fun e he => (h.expired e he).extends hall
  · intro place hplace
    refine ⟨(hplaces place hplace).2, ?_⟩
    rw [hcreate.recycled]
    exact (hplaces place hplace).1

/-! ## The events posted -/

section Events

variable {a : Allocated} {notified : Bool} {event rootEvent : ActivationEvent Place}

/-- The deadline of a `POST` constrains all its events. -/
theorem Sound.constrainedDeath_le (h : s.Sound) (ha : a ∈ s.allocated)
    (halive : s.mem_.recycled.length ≤ a.place.epoch) {window : TimeWindow} (hpost : a.verb = .POST window)
    (dead : Int) : a.activity.constrainedDeath dead ≤ a.dead := by
  have hwindow : window.dead ≤ a.dead := (h.within a ha halive).1 window (by rw [hpost]; rfl)
  have hdeath : a.activity.constrainedDeath dead = min dead window.dead := by
    rw [Allocated.activity, hpost]
    rfl
  omega

omit [PriorityQueue Q (ActivationEvent.starting : ActivationEvent Place → Int)] in
theorem limits_iff : s.limits a notified = true ↔ s.mem_.recycled.length ≤ a.place.epoch ∧
    ((∃ window, a.verb = .POST window) ∨
      ∃ condition, a.verb = .GATE condition ∧ notified = true ∧ isRegular condition.dead = true) := by
  rw [limits, Bool.and_eq_true, decide_eq_true_iff]
  refine and_congr_right fun _ => ?_
  cases a.verb <;> simp

theorem Sound.event_le (h : s.Sound) (ha : a ∈ s.allocated) (hlimits : s.limits a false = true)
    (starting dead : Int) (manID : ManifestationID) (isCompulsory : Bool) :
    (a.event starting dead manID isCompulsory).deadline ≤ a.dead := by
  obtain ⟨halive, ⟨window, hpost⟩ | ⟨condition, -, hnotified, -⟩⟩ := limits_iff.mp hlimits
  · exact h.constrainedDeath_le ha halive hpost dead
  · cases hnotified

theorem Sound.selfEvent_le (h : s.Sound) (ha : a ∈ s.allocated) (hlimits : s.limits a false = true)
    (window : TimeWindow) : (a.selfEvent rootEvent window).deadline ≤ a.dead := by
  obtain ⟨halive, ⟨window', hpost⟩ | ⟨condition, -, hnotified, -⟩⟩ := limits_iff.mp hlimits
  · exact h.constrainedDeath_le ha halive hpost _
  · cases hnotified

theorem Sound.notifyEvent_le (h : s.Sound) (ha : a ∈ s.allocated) (hlimits : s.limits a true = true)
    (timing now : Int) : (a.notifyEvent rootEvent timing now).deadline ≤ a.dead := by
  obtain ⟨halive, ⟨window, hpost⟩ | ⟨condition, hgate, -, hregular⟩⟩ := limits_iff.mp hlimits
  · exact h.constrainedDeath_le ha halive hpost _
  · -- a Gate which is not locked uses its own deadline
    have hdeadline : (a.notifyEvent rootEvent timing now).deadline =
        if isRegular condition.dead then condition.dead else rootEvent.deadline := by
      rw [Allocated.notifyEvent, Allocated.activity, hgate]
      rfl
    rw [hdeadline, if_pos hregular]
    exact (h.within a ha halive).2 condition (by rw [hgate]; rfl) hregular

/-- Posting a timely event is sound. -/
theorem Sound.postChain (h : s.Sound) (ha : a ∈ s.allocated) (hplace : event.activity = a.place)
    (hlimited : s.limits a notified = true → event.deadline ≤ a.dead) (htimely : s.TimelyEvent a notified event)
    {holding : Bool} (hpost : s.postChain now event holding = some t) : t.Sound := by
  obtain ⟨d, hd, hle⟩ := h.allocated a ha
  have hdeadline : event.deadline ≤ d := by
    cases hlimits : s.limits a notified with
    | true => exact (hlimited hlimits).trans hle
    | false => exact htimely.1 hlimits d hd
  have hexpired : s.mem_.Expired event := by
    intro r hr
    rw [hplace] at hr
    have hrecycled : r.epoch.deadline = d := by
      have hlt : a.place.epoch < (s.mem_.recycled.map (·.epoch.deadline)).length := by
        rw [length_map]
        exact (List.getElem?_eq_some_iff.mp hr).1
      rw [BlockFlow.deadlines, getElem?_append_left hlt, getElem?_map] at hd
      obtain ⟨r', hr', rfl⟩ := Option.map_eq_some_iff.mp hd
      obtain rfl : r = r' := Option.some.inj (hr.symm.trans hr')
      rfl
    have hdead := h.dead r (mem_of_getElem? hr)
    by_cases heq : r.discardedAt = event.deadline
    · exact .inr (htimely.2 r hr heq)
    · omega
  unfold Scheduler.postChain at hpost
  split at hpost
  · obtain rfl := Option.some.inj hpost
    refine h.of_event ?_ ⟨d, by rw [hplace]; exact hd, hdeadline⟩ hexpired
    split
    · exact SchedulerInvocation.pending_feedDirectly _
    · exact SchedulerInvocation.pending_instruct _
  · cases hpost

/-- What is stored may change, within the deadline as long as the Epoch is in use. -/
theorem Sound.setVerb (h : s.Sound) (ha : a ∈ s.allocated) (act : Nat) {verb : Verb}
    (hwithin : s.mem_.recycled.length ≤ a.place.epoch → Within verb a.dead) : (s.setVerb act a verb).Sound := by
  refine ⟨h.ordered, h.dead, fun b hb => ?_, fun b hb halive => ?_, h.pending, h.expired⟩
  · rcases mem_or_eq_of_mem_set hb with hb | rfl
    · exact h.allocated b hb
    · exact h.allocated a ha
  · rcases mem_or_eq_of_mem_set hb with hb | rfl
    · exact h.within b hb halive
    · exact hwithin halive

end Events

theorem within_windowed (verb : Verb) (start dead : Int) : Within (verb.windowed start dead) dead := by
  cases verb <;> simp [Within, Verb.windowed, Verb.timeWindow?, Verb.condition?]

/-- Being notified, a Gate keeps the deadline or is locked. -/
theorem dead_receiveGateNotification (condition : Condition) (now : Int) :
    (condition.receiveGateNotification now).2.dead = condition.dead ∨
      (condition.receiveGateNotification now).2.dead = Lib.Time.MIN := by
  unfold Condition.receiveGateNotification
  split
  · dsimp only
    split
    · exact .inr rfl
    · exact .inl rfl
  · exact .inl rfl

theorem within_receiveGateNotification {condition : Condition} {dead : Int}
    (h : isRegular condition.dead = true → condition.dead ≤ dead) (now : Int) :
    Within (.GATE (condition.receiveGateNotification now).2) dead := by
  refine ⟨nofun, fun c hc hregular => ?_⟩
  obtain rfl : _ = c := Option.some.inj hc
  obtain hkept | hlocked := dead_receiveGateNotification condition now
  · rw [hkept] at hregular ⊢
    exact h hregular
  · rw [hlocked] at hregular
    cases hregular

/-- The clean-up keeps the allocations sound, when no event is due just at the deadline. -/
theorem Sound.discardBefore (conf : BlockConfig) (h : s.Sound)
    (htimely : ∀ e ∈ s.layer1_.pending, s.mem_.Discardable now e.activity.epoch →
      e.deadline = now → now < e.starting) :
    Sound { s with mem_ := s.mem_.discardBefore conf now } := by
  have hholds : ∀ {place : Place} {dead : Int}, s.mem_.Holds place dead →
      (s.mem_.discardBefore conf now).Holds place dead := by
    intro place dead hplace
    rw [BlockFlow.Holds, BlockFlow.deadlines_discardBefore]
    exact hplace
  refine ⟨h.ordered.discardBefore now, ?_, fun a ha => hholds (h.allocated a ha), ?_,
    fun e he => hholds (h.pending e he),
    fun e he => (h.expired e he).discardBefore (h.pending e he) (htimely e he)⟩
  · intro r hr
    rw [(BlockFlow.discardBefore_spec conf s.mem_ now).2] at hr
    rcases mem_append.mp hr with hr | hr
    · exact h.dead r hr
    · obtain ⟨epoch, hepoch, rfl⟩ := mem_map.mp hr
      have halive := mem_takeWhile_imp hepoch
      exact Epoch.deadline_le_of_not_isAlive (by simpa using halive)
  · intro a ha halive
    refine h.within a ha (le_trans ?_ halive)
    rw [(BlockFlow.discardBefore_spec conf s.mem_ now).2, length_append]
    exact Nat.le_add_right _ _

theorem Sound.foldl_feedDirectly (events : List (ActivationEvent Place)) {s : Scheduler Q}
    (h : s.Sound) (hevents : ∀ e ∈ events, s.mem_.Holds e.activity e.deadline ∧ s.mem_.Expired e) :
    Sound { s with layer1_ := events.foldl .feedDirectly s.layer1_ } := by
  induction events generalizing s with
  | nil => exact h
  | cons event events ih =>
    obtain ⟨hholds, hexpired⟩ := hevents event mem_cons_self
    exact ih (h.of_event (SchedulerInvocation.pending_feedDirectly event) hholds hexpired)
      fun e he => hevents e (mem_cons_of_mem _ he)

theorem mem_of_mem_maintainQueueHead {e : ActivationEvent Place}
    (he : e ∈ (s.layer1_.maintainQueueHead now).2.1.pending) : e ∈ s.layer1_.pending := by
  rw [(SchedulerInvocation.discardObsolete_spec s.layer1_ now).1.pending]
  exact Multiset.mem_add.mpr (.inr he)

/-- The duty cycle keeps the allocations sound. -/
theorem Sound.handleDutyCycle (h : s.Sound) {forceContinuation : Bool}
    (htimely : s.Timely conf (.handleDutyCycle now forceContinuation)) :
    (s.handleDutyCycle conf now forceContinuation).Sound := by
  have hlayer1 : Sound { s with layer1_ := (s.layer1_.maintainQueueHead now).2.1 } :=
    h.of_pending fun e he => mem_of_mem_maintainQueueHead he
  rw [Scheduler.handleDutyCycle]
  by_cases hconsistent : (s.layer1_.maintainQueueHead now).2.2 = true
  · obtain ⟨hboundary, hspaced⟩ := htimely hconsistent
    have hclean := hlayer1.discardBefore conf hboundary
    simp only [hconsistent, Bool.not_true, Bool.false_eq_true, if_false]
    split
    · split
      · exact hclean
      · next places t halloc =>
          have htick : ∀ verb ∈ [Verb.TICK], Within verb (now + (if forceContinuation then WORK_HORIZON
              else DUTY_CYCLE_PERIOD) + DUTY_CYCLE_TOLERANCE) := by
            simp [Within, Verb.timeWindow?, Verb.condition?]
          obtain ⟨ht, -, hplaces⟩ := hclean.allocate hspaced htick halloc
          refine ht.foldl_feedDirectly _ fun e he => ?_
          obtain ⟨place, hplace, rfl⟩ := mem_map.mp he
          exact ⟨(hplaces place hplace).1, .of_active (hplaces place hplace).2⟩
    · exact hclean
  · simp only [hconsistent]
    exact hlayer1

/-- Each timely operation keeps the allocations sound. -/
theorem Sound.step (h : s.Sound) {op : SchedulerOp} (htimely : s.Timely conf op)
    (hstep : s.step conf op = some t) : t.Sound := by
  cases op with
  | buildTerm start deadline activities =>
    obtain ⟨⟨places, t⟩, halloc, rfl⟩ := Option.map_eq_some_iff.mp hstep
    refine (h.allocate htimely (fun verb hverb => ?_) halloc).1
    obtain ⟨verb, -, rfl⟩ := mem_map.mp hverb
    exact within_windowed verb start deadline
  | post act starting dead manID isCompulsory now holding =>
    obtain ⟨a, ha, hpost⟩ := Option.bind_eq_some_iff.mp hstep
    have hmem := mem_of_getElem? ha
    exact h.postChain hmem rfl (h.event_le hmem · starting dead manID isCompulsory) (htimely a ha) hpost
  | notify rootEvent target timing now holding =>
    obtain ⟨a, ha, hpost⟩ := Option.bind_eq_some_iff.mp hstep
    have hmem := mem_of_getElem? ha
    exact h.postChain hmem rfl (h.notifyEvent_le hmem · timing now) (htimely a ha) hpost
  | postSelf rootEvent act now holding =>
    obtain ⟨a, ha, hself⟩ := Option.bind_eq_some_iff.mp hstep
    obtain ⟨window, hwindow, hpost⟩ := Option.bind_eq_some_iff.mp hself
    have hmem := mem_of_getElem? ha
    exact h.postChain hmem rfl (h.selfEvent_le hmem · window) (htimely a ha window hwindow) hpost
  | receiveGateNotification gate now =>
    obtain ⟨a, ha, hgate⟩ := Option.bind_eq_some_iff.mp hstep
    obtain ⟨condition, hcondition, heq⟩ := Option.bind_eq_some_iff.mp hgate
    cases heq
    have hmem := mem_of_getElem? ha
    exact h.setVerb hmem gate fun halive =>
      within_receiveGateNotification ((h.within a hmem halive).2 condition hcondition) now
  | reuse act verb =>
    obtain ⟨a, ha, hreuse⟩ := Option.bind_eq_some_iff.mp hstep
    obtain ⟨hrecycled, heq⟩ := Option.ite_none_right_eq_some.mp hreuse
    cases heq
    exact h.setVerb (mem_of_getElem? ha) act fun halive => absurd hrecycled (not_lt.mpr halive)
  | handleDutyCycle now forceContinuation =>
    cases hstep
    exact h.handleDutyCycle htimely
  | findWork now =>
    cases hstep
    refine h.of_pending fun e he => ?_
    have hpending := (s.layer1_.retrieveWork_spec now []).pending
    rw [Multiset.coe_nil, add_zero] at hpending
    rw [hpending]
    exact Multiset.mem_add.mpr (.inr he)
  | activate manID =>
    cases hstep
    refine h.of_pending fun e he => ?_
    unfold SchedulerInvocation.activate at he
    split at he <;> exact he
  | drop manID =>
    cases hstep
    exact h.of_pending fun e he => he
  | announceLoad fps =>
    cases hstep
    exact h.of_epochStep _
  | terminateProcessing =>
    cases hstep
    refine h.of_pending fun e he => ?_
    rw [SchedulerInvocation.pending_discardSchedule] at he
    exact absurd he (Multiset.notMem_zero e)

theorem sound_invariant :
    (machine conf |>.restrict (Timely conf)).Invariant (Sound : Scheduler Q → Prop) where
  init s hs := by
    obtain rfl : s = initial conf := hs
    refine ⟨.nil, nofun, nofun, nofun, ?_, ?_⟩ <;>
    · intro e he
      simp [initial, SchedulerInvocation.empty, SchedulerInvocation.pending,
        PriorityQueue.content_empty] at he
  step _ _ _ h hstep := h.step hstep.1 hstep.2

/-! ## Memory safety against time -/

/-- **No event found by `findWork` refers to an Epoch** which was recycled by then. -/
def FindsNothingRecycled (s : Scheduler Q) : Prop :=
  ∀ (layer2 : SchedulerCommutator Nat) (thisThread : Nat) (now : Int) (e : ActivationEvent Place),
    (layer2.findWork thisThread s.layer1_ now []).1.found = some e →
      ∀ r ∈ s.mem_.recycled[e.activity.epoch]?, now < r.discardedAt

theorem Sound.findsNothingRecycled (h : s.Sound) : s.FindsNothingRecycled := by
  intro layer2 thisThread now e hfound r hr
  rcases layer2.findWork_spec thisThread s.layer1_ now [] with ⟨-, hretrieving⟩ | ⟨hnothing, -⟩
  · obtain ⟨hdue, hout, -⟩ := hretrieving.found e hfound
    have hdeadline : now ≤ e.deadline := not_lt.mp fun hlate => hout (.inl hlate)
    have hpending : e ∈ s.layer1_.pending := by
      have := hretrieving.pending
      rw [Multiset.coe_nil, add_zero, hfound] at this
      rw [this]
      exact Multiset.mem_add.mpr (.inl (Multiset.mem_add.mpr (.inl (by simp))))
    have := h.expired e hpending r hr
    omega
  · rw [hnothing] at hfound
    cases hfound

/-- **Memory safety.** As long as all operations are timely, no event found refers to an Epoch which
was recycled. The boundary to retire an Epoch and the one to declare an entry missed agree, save
just at the deadline. -/
theorem memory_safe_when_timely
    (hs : (machine conf |>.restrict (Timely conf)).Reachable s) :
    s.FindsNothingRecycled ∧
      ∀ (c : Condition) (now : Int), (c.isDead now = true ↔ now > c.dead) ↔ now ≠ c.dead := by
  refine ⟨(sound_invariant.reachable hs).findsNothingRecycled, fun c now => ?_⟩
  rw [Condition.isDead, decide_eq_true_eq]
  omega

/-- The settings for the render engine. Factors are computed as fractions, in place of floating
point numbers. -/
def renderConfig : BlockConfig where
  EPOCH_SIZ := 500
  usable := by decide
  initialEpochStep := 400000
  markEpochOverflow epochStep :=
    if epochStep > 6666 then (epochStep * (99837613 / 100000000 : Rat)).floor else epochStep
  markEpochUnderflow epochStep actualLen filledSlots :=
    let fillFactor : Rat := filledSlots / 499 / (90 / 100)
    let adjust : Rat :=
      if fillFactor > 8 / 100 then fillFactor
      else
        let f := 1 - fillFactor / (8 / 100)
        f * (85 / 100) + (1 - f) * fillFactor
    let contribution : Rat := actualLen / epochStep / adjust
    (epochStep * ((contribution + 5) / 6)).floor
  announceAdditionalFlow epochStep additionalFps :=
    max (50 / (50 / |epochStep| + additionalFps / 1000000) : Rat).floor 6666

instance (a : Allocated) (notified : Bool) (event : ActivationEvent Place) :
    Decidable (s.TimelyEvent a notified event) := by
  unfold TimelyEvent
  infer_instance

instance (op : SchedulerOp) : Decidable (Timely conf s op) := by
  cases op <;> unfold Timely BlockFlow.Spaced BlockFlow.Discardable <;> infer_instance

/-- The Activities of a calculation job with one prerequisite. -/
def calculationJob : List Verb :=
  [.FEED 0 0, .FEED 0 0, .INVOKE 1 0, .POST ⟨0, 0⟩, .GATE ⟨1, 0⟩, .WORKSTART, .WORKSTOP]

/-- A Gate is notified, and once more when it is locked, which falls back to the deadline of the event
processed; and an event is posted belatedly, when its Epoch was already recycled. -/
theorem memory_safe_late_event : ∃ s : Scheduler (List (ActivationEvent Place)), s.mem_.recycled ≠ [] ∧
    s.layer1_.instruct_ ≠ [] ∧ s.FindsNothingRecycled ∧ ∀ (c : Condition) (now : Int),
    (c.isDead now = true ↔ now > c.dead) ↔ now ≠ c.dead := by
  obtain ⟨t, hreach, ht⟩ := Machine.exists_restrict_reachable_of_exec (Timely renderConfig)
    (step renderConfig) (initial renderConfig : Scheduler (List (ActivationEvent Place)))
    [.buildTerm 500000 600000 calculationJob, .buildTerm 900000 1000000 calculationJob,
      .handleDutyCycle 900000 true, .notify ⟨⟨0, 496⟩, 500000, 600000, 0, false⟩ 11 900000 900000 true,
      .receiveGateNotification 11 900001, .notify ⟨⟨0, 489⟩, 900000, 950000, 0, false⟩ 11 900000 900002 true,
      .handleDutyCycle 1000001 false, .post 10 900000 1000000 0 false 1000002 false]
    (fun t => t.mem_.recycled != [] && t.layer1_.instruct_ != []) (by decide)
  simp only [Bool.and_eq_true, bne_iff_ne] at ht
  exact ⟨t, ht.1, ht.2, memory_safe_when_timely hreach⟩

/-- **At the deadline**, an event is found after its Epoch was recycled at the same time. -/
theorem recycled_found_at_deadline : ¬ ∀ s : Scheduler (List (ActivationEvent Place)),
    (machine renderConfig).Reachable s → s.FindsNothingRecycled := by
  intro hclaim
  obtain ⟨t, hreach, ht⟩ := Machine.exists_reachable_of_exec (step renderConfig)
    (initial renderConfig : Scheduler (List (ActivationEvent Place)))
    [.buildTerm 500000 600000 calculationJob, .buildTerm 900000 1000000 calculationJob,
      .post 10 900000 1000000 0 false 890000 false, .handleDutyCycle 1000000 false]
    (fun t => ((SchedulerCommutator.mk none).findWork 1 t.layer1_ 1000000 []).1.found ==
        some ⟨⟨0, 489⟩, 900000, 1000000, 0, false⟩ &&
      t.mem_.recycled[0]?.any fun r => r.discardedAt == 1000000) (by decide)
  simp only [Bool.and_eq_true, beq_iff_eq, Option.any_eq_true] at ht
  obtain ⟨hfound, r, hr, hat⟩ := ht
  have := hclaim t hreach _ _ _ _ hfound r hr
  omega

end Scheduler

end Lumiera.Vault.Gear
