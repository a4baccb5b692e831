import Mathlib.Tactic.Abel
import Lumiera.Base.Machine
import Lumiera.Vault.Gear.SchedulerCommutator

/-! # Scheduling with two queues

Any interleaving of posting and retrieving events, at any times, and of enabling and disabling
manifestations. Events are neither lost nor duplicated, work is retrieved in the order of its start
times, and a compulsory event is not dropped. Only the head of the priority queue is looked at: a
compulsory event which missed its deadline makes the queue report this as soon as it is in front. -/

namespace Lumiera.Vault.Gear

open List

open SchedulerInvocation (WorkFound)

variable {Q Activity ThreadID : Type} [DecidableEq ThreadID]
variable [PriorityQueue Q (ActivationEvent.starting : ActivationEvent Activity → Int)]

/-- **Both layers of the scheduler**, with a record of what happened to the events. -/
structure Schedule (Q Activity ThreadID : Type) where
  layer1 : SchedulerInvocation Q Activity
  layer2 : SchedulerCommutator ThreadID
  /-- The events posted. -/
  posted : List (ActivationEvent Activity)
  /-- The events returned by `findWork`. -/
  returned : List (ActivationEvent Activity)
  /-- The events dropped as outdated. -/
  discarded : List (ActivationEvent Activity)
  /-- The events handed out by an explicit `pullHead`. -/
  pulled : List (ActivationEvent Activity)

/-- Operations of the scheduler. -/
inductive ScheduleOp (Activity ThreadID : Type)
  | instruct (actEvent : ActivationEvent Activity)
  | feedPrioritisation
  | feedDirectly (actEvent : ActivationEvent Activity)
  | pullHead
  /-- Some thread looks for work, while the events `arriving` are instructed by other threads. -/
  | findWork (thisThread : ThreadID) (now : Int) (arriving : List (ActivationEvent Activity))
  | postChain (thisThread : ThreadID) (event : ActivationEvent Activity)
  | activate (manID : ManifestationID)
  | drop (manID : ManifestationID)
  | acquireGroomingToken (thisThread : ThreadID)
  | dropGroomingToken (thisThread : ThreadID)

namespace Schedule

/-- An empty schedule. -/
def initial : Schedule Q Activity ThreadID := ⟨.empty, ⟨none⟩, [], [], [], []⟩

/-- Perform an operation. -/
def step (s : Schedule Q Activity ThreadID) :
    ScheduleOp Activity ThreadID → Option (Schedule Q Activity ThreadID)
  | .instruct e => some { s with layer1 := s.layer1.instruct e, posted := s.posted ++ [e] }
  | .feedPrioritisation => some { s with layer1 := s.layer1.feedPrioritisation }
  | .feedDirectly e => some { s with layer1 := s.layer1.feedDirectly e, posted := s.posted ++ [e] }
  | .pullHead =>
    let r := s.layer1.pullHead
    some { s with layer1 := r.2, pulled := s.pulled ++ r.1.toList }
  | .findWork thisThread now arriving =>
    let r := s.layer2.findWork thisThread s.layer1 now arriving
    some { s with
      layer1 := r.1.layer1
      layer2 := r.2
      posted := s.posted ++ arriving
      returned := s.returned ++ r.1.found.toList
      discarded := s.discarded ++ r.1.discarded }
  | .postChain thisThread e =>
    some { s with
      layer1 := s.layer2.postChain thisThread e s.layer1
      posted := s.posted ++ [e] }
  | .activate manID => some { s with layer1 := s.layer1.activate manID }
  | .drop manID => some { s with layer1 := s.layer1.drop manID }
  | .acquireGroomingToken thisThread =>
    some { s with layer2 := (s.layer2.acquireGroomingToken thisThread).2 }
  | .dropGroomingToken thisThread => do
      return { s with layer2 := ← s.layer2.dropGroomingToken thisThread }

/-- The scheduler at work. -/
def machine : Machine (Schedule Q Activity ThreadID) (ScheduleOp Activity ThreadID) :=
  .ofFun initial step

/-! ## Conservation of events -/

/-- **Each event posted** is exactly once either in the entrance queue, in the priority queue, or
among those returned, dropped or pulled. -/
def Conserved (s : Schedule Q Activity ThreadID) : Prop :=
  (s.posted : Multiset (ActivationEvent Activity)) =
    (s.layer1.instruct_ : Multiset (ActivationEvent Activity)) +
      PriorityQueue.content s.layer1.priority_ + (s.returned : Multiset (ActivationEvent Activity)) +
      (s.discarded : Multiset (ActivationEvent Activity)) +
      (s.pulled : Multiset (ActivationEvent Activity))

variable {s t : Schedule Q Activity ThreadID}

omit [DecidableEq ThreadID] in
theorem Conserved.of_balance (h : s.Conserved)
    (arriving found discarded pulled : List (ActivationEvent Activity))
    (hposted : t.posted = s.posted ++ arriving) (hreturned : t.returned = s.returned ++ found)
    (hdiscarded : t.discarded = s.discarded ++ discarded) (hpulled : t.pulled = s.pulled ++ pulled)
    (hbalance : s.layer1.pending + (arriving : Multiset (ActivationEvent Activity)) =
      (found : Multiset (ActivationEvent Activity)) +
        (discarded : Multiset (ActivationEvent Activity)) +
        (pulled : Multiset (ActivationEvent Activity)) + t.layer1.pending) :
    t.Conserved := by
  have hs : (s.posted : Multiset (ActivationEvent Activity)) =
      s.layer1.pending + s.returned + s.discarded + s.pulled := h
  show (t.posted : Multiset (ActivationEvent Activity)) =
    t.layer1.pending + t.returned + t.discarded + t.pulled
  rw [hposted, hreturned, hdiscarded, hpulled]
  calc (s.posted : Multiset (ActivationEvent Activity)) + arriving
      = s.layer1.pending + arriving + (s.returned + s.discarded + s.pulled) := by rw [hs]; abel
    _ = found + discarded + pulled + t.layer1.pending + (s.returned + s.discarded + s.pulled) := by
        rw [hbalance]
    _ = t.layer1.pending + (s.returned + found) + (s.discarded + discarded) +
          (s.pulled + pulled) := by abel

variable {layer1 : SchedulerInvocation Q Activity}

omit [DecidableEq ThreadID] in
theorem Conserved.of_pending (h : s.Conserved) {layer2 : SchedulerCommutator ThreadID}
    (hpending : layer1.pending = s.layer1.pending) : Conserved { s with layer1 := layer1, layer2 := layer2 } :=
  h.of_balance [] [] [] [] (append_nil _).symm (append_nil _).symm
    (append_nil _).symm (append_nil _).symm (by simp [hpending])

variable {e : ActivationEvent Activity}

omit [DecidableEq ThreadID] in
theorem Conserved.of_post (h : s.Conserved) (hpending : layer1.pending = e ::ₘ s.layer1.pending) :
    Conserved { s with layer1 := layer1, posted := s.posted ++ [e] } := by
  refine h.of_balance [e] [] [] [] rfl (append_nil _).symm (append_nil _).symm
    (append_nil _).symm ?_
  simp [hpending, add_comm]

/-- Each operation keeps the events. -/
theorem Conserved.step (h : s.Conserved) {op : ScheduleOp Activity ThreadID}
    (hstep : s.step op = some t) : t.Conserved := by
  cases op with
  | instruct e =>
    simp only [Schedule.step, Option.some.injEq] at hstep
    subst hstep
    exact h.of_post (SchedulerInvocation.pending_instruct e)
  | feedPrioritisation =>
    simp only [Schedule.step, Option.some.injEq] at hstep
    subst hstep
    exact h.of_pending SchedulerInvocation.pending_feedPrioritisation
  | feedDirectly e =>
    simp only [Schedule.step, Option.some.injEq] at hstep
    subst hstep
    exact h.of_post (SchedulerInvocation.pending_feedDirectly e)
  | pullHead =>
    simp only [Schedule.step, Option.some.injEq] at hstep
    subst hstep
    refine h.of_balance [] [] [] s.layer1.pullHead.1.toList (append_nil _).symm
      (append_nil _).symm (append_nil _).symm rfl ?_
    simpa using s.layer1.pending_pullHead
  | findWork thisThread now arriving =>
    simp only [Schedule.step, Option.some.injEq] at hstep
    subst hstep
    refine h.of_balance arriving _ _ [] rfl rfl rfl (append_nil _).symm ?_
    rw [Multiset.coe_nil, add_zero]
    rcases s.layer2.findWork_spec thisThread s.layer1 now arriving with
      ⟨-, hretrieving⟩ | ⟨hnothing, -⟩
    · exact hretrieving.pending
    · rw [hnothing]
      simp [SchedulerInvocation.pending_foldl_instruct]
  | postChain thisThread e =>
    simp only [Schedule.step, Option.some.injEq] at hstep
    subst hstep
    refine h.of_post ?_
    unfold SchedulerCommutator.postChain
    split
    · exact SchedulerInvocation.pending_feedDirectly e
    · exact SchedulerInvocation.pending_instruct e
  | activate manID =>
    simp only [Schedule.step, Option.some.injEq] at hstep
    subst hstep
    refine h.of_pending ?_
    unfold SchedulerInvocation.activate
    split <;> rfl
  | drop manID =>
    simp only [Schedule.step, Option.some.injEq] at hstep
    subst hstep
    exact h.of_pending rfl
  | acquireGroomingToken thisThread =>
    simp only [Schedule.step, Option.some.injEq] at hstep
    subst hstep
    exact h.of_pending rfl
  | dropGroomingToken thisThread =>
    simp only [Schedule.step, Option.bind_eq_bind, Option.bind_eq_some_iff] at hstep
    obtain ⟨layer2, -, ⟨⟩⟩ := hstep
    exact h.of_pending rfl

theorem conserved_invariant :
    Machine.Invariant machine (Conserved : Schedule Q Activity ThreadID → Prop) where
  init s hs := by
    obtain rfl : s = initial := hs
    simp [Conserved, initial, SchedulerInvocation.empty, PriorityQueue.content_empty]
  step _ _ _ h hstep := h.step hstep

/-! ## Retrieval of work -/

/-- **What may be expected from `findWork`**, by a thread which then holds the grooming token. -/
structure WorkRetrieved (layer1 : SchedulerInvocation Q Activity) (now : Int)
    (arriving : List (ActivationEvent Activity)) (r : WorkFound Q Activity) (holding : Bool) :
    Prop where
  /-- An event found is eligible, and no event of the priority queue has an earlier start. -/
  found : ∀ e, r.found = some e →
    e.starting ≤ now ∧ now ≤ e.deadline ∧ layer1.isActivated e.manifestation = true ∧
      ∀ x ∈ PriorityQueue.content r.layer1.priority_, e.starting ≤ x.starting
  /-- An event dropped missed its deadline or is not active, and it is not both compulsory and
  active. -/
  discarded : ∀ e ∈ r.discarded,
    (e.deadline < now ∨ layer1.isActivated e.manifestation = false) ∧
      ¬ (e.isCompulsory = true ∧ layer1.isActivated e.manifestation = true)
  /-- A compulsory event which missed its deadline is kept; and the queue reports this, unless there
  is still an event in front which is neither late nor inactive. -/
  compulsory : ∀ e ∈ layer1.pending + (arriving : Multiset (ActivationEvent Activity)),
    e.isCompulsory = true → layer1.isActivated e.manifestation = true → e.deadline < now →
    e ∈ r.layer1.pending ∧ (holding = true → r.layer1.isOutOfTime now = true ∨
      ∃ head, (r.found = some head ∨ r.layer1.peekHead = some head) ∧
        head.starting ≤ e.starting ∧ now ≤ head.deadline ∧
        layer1.isActivated head.manifestation = true)

omit [DecidableEq ThreadID] [PriorityQueue Q ActivationEvent.starting] in
theorem not_outdated_iff {now : Int} :
    ¬ layer1.Outdated now e ↔ now ≤ e.deadline ∧ layer1.isActivated e.manifestation = true := by
  rw [SchedulerInvocation.Outdated, not_or, not_lt, Bool.not_eq_false]

/-- Each look for work does what may be expected. -/
theorem findWork_retrieved (s : Schedule Q Activity ThreadID) (thisThread : ThreadID) (now : Int)
    (arriving : List (ActivationEvent Activity)) :
    WorkRetrieved s.layer1 now arriving (s.layer2.findWork thisThread s.layer1 now arriving).1
      ((s.layer2.findWork thisThread s.layer1 now arriving).2.holdsGroomingToken thisThread) := by
  rcases s.layer2.findWork_spec thisThread s.layer1 now arriving with
    ⟨-, h⟩ | ⟨hnothing, hfree⟩
  · refine ⟨fun e he => ?_, fun e he => h.discarded e he, fun e he hcomp hactive hlate => ?_⟩
    · obtain ⟨hstart, hout, hfirst⟩ := h.found e he
      obtain ⟨hdeadline, hactive⟩ := not_outdated_iff.mp hout
      exact ⟨hstart, hdeadline, hactive, hfirst⟩
    · have hkept : e ∈ (s.layer2.findWork thisThread s.layer1 now arriving).1.layer1.pending := by
        rw [h.pending] at he
        rcases Multiset.mem_add.mp he with he | he
        · rcases Multiset.mem_add.mp he with he | he
          · have hfound := Option.mem_toList.mp (Multiset.mem_coe.mp he)
            exact absurd (.inl hlate) (h.found e hfound).2.1
          · exact absurd ⟨hcomp, hactive⟩ (h.discarded e (Multiset.mem_coe.mp he)).2
        · exact he
      refine ⟨hkept, fun _ => h.late.imp_right fun hfront => ?_⟩
      obtain ⟨head, hhead, hstart, hout⟩ := hfront e hkept
      exact ⟨head, hhead, hstart, not_outdated_iff.mp hout⟩
  · rw [hnothing]
    refine ⟨nofun, nofun, fun e he _ _ _ => ⟨?_, fun hholds => ?_⟩⟩
    · rwa [SchedulerInvocation.pending_foldl_instruct]
    · rw [hfree] at hholds
      cases hholds

/-- **Two-queue scheduling.** In every run each event posted is exactly once in one of the queues, or
among those returned, dropped, or pulled explicitly; and each look for work retrieves the earliest
event if it is due, drops just outdated events, and keeps late compulsory events. -/
theorem two_queue_scheduling (hs : machine.Reachable s) :
    s.Conserved ∧ ∀ thisThread now arriving,
      WorkRetrieved s.layer1 now arriving (s.layer2.findWork thisThread s.layer1 now arriving).1
        ((s.layer2.findWork thisThread s.layer1 now arriving).2.holdsGroomingToken thisThread) :=
  ⟨conserved_invariant.reachable hs, s.findWork_retrieved⟩

/-- An event found, and a compulsory one kept, which arrived while looking for work. -/
theorem two_queue_scheduling_late :
    ∃ s : Schedule (List (ActivationEvent Nat)) Nat Nat,
      s.returned = [⟨1, 0, 100, 0, false⟩] ∧ s.Conserved ∧ ∀ thisThread now arriving,
        WorkRetrieved s.layer1 now arriving (s.layer2.findWork thisThread s.layer1 now arriving).1
          ((s.layer2.findWork thisThread s.layer1 now arriving).2.holdsGroomingToken thisThread) := by
  obtain ⟨t, hreach, ht⟩ := Machine.exists_reachable_of_exec Schedule.step
    (initial : Schedule (List (ActivationEvent Nat)) Nat Nat)
    [.instruct ⟨1, 0, 100, 0, false⟩, .findWork 1 10 [⟨2, 5, 7, 0, true⟩]]
    (fun t => t.returned == [⟨1, 0, 100, 0, false⟩]) (by decide)
  exact ⟨t, by simpa using ht, two_queue_scheduling hreach⟩

/-- An event handed out by `pullHead` is neither waiting nor returned by `findWork` nor dropped; and
a compulsory event which missed its deadline does not make the queue report this, as long as there
is another event in front. -/
theorem pulled_and_not_in_front :
    ¬ (∀ s : Schedule (List (ActivationEvent Nat)) Nat Nat, machine.Reachable s →
      ∀ e ∈ s.posted, e ∈ s.layer1.instruct_ ∨ e ∈ PriorityQueue.content s.layer1.priority_ ∨
        e ∈ s.returned ∨ e ∈ s.discarded) ∧
    ¬ (∀ s : Schedule (List (ActivationEvent Nat)) Nat Nat, machine.Reachable s →
      ∀ now, ∀ e ∈ PriorityQueue.content s.layer1.priority_, e.isCompulsory = true →
        s.layer1.isActivated e.manifestation = true → e.deadline < now →
        s.layer1.isOutOfTime now = true) := by
  constructor
  · intro hclaim
    obtain ⟨t, hreach, ht⟩ := Machine.exists_reachable_of_exec Schedule.step
      (initial : Schedule (List (ActivationEvent Nat)) Nat Nat)
      [.feedDirectly ⟨1, 0, 100, 0, false⟩, .pullHead]
      (fun t => t.posted == [⟨1, 0, 100, 0, false⟩] && (t.layer1.instruct_ == [] &&
        (t.layer1.priority_ == [] && (t.returned == [] && t.discarded == [])))) (by decide)
    simp only [Bool.and_eq_true, beq_iff_eq] at ht
    obtain ⟨hposted, hinstruct, hpriority, hreturned, hdiscarded⟩ := ht
    have hwhere := hclaim t hreach ⟨1, 0, 100, 0, false⟩ (by simp [hposted])
    rw [hinstruct, hpriority, hreturned, hdiscarded] at hwhere
    exact absurd hwhere (by decide)
  · intro hclaim
    obtain ⟨t, hreach, ht⟩ := Machine.exists_reachable_of_exec Schedule.step
      (initial : Schedule (List (ActivationEvent Nat)) Nat Nat)
      [.feedDirectly ⟨1, 0, 100, 0, false⟩, .feedDirectly ⟨2, 5, 7, 0, true⟩]
      (fun t => decide (⟨2, 5, 7, 0, true⟩ ∈ PriorityQueue.content t.layer1.priority_) &&
        (t.layer1.isActivated 0 && !t.layer1.isOutOfTime 10)) (by decide)
    simp only [Bool.and_eq_true, decide_eq_true_eq, Bool.not_eq_true'] at ht
    obtain ⟨hmem, hactive, htime⟩ := ht
    have hreport := hclaim t hreach 10 _ hmem rfl hactive (by decide)
    rw [htime] at hreport
    cases hreport

end Schedule

end Lumiera.Vault.Gear
