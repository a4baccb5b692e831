import Lumiera.Vault.Gear.SchedulerInvocation

/-! # Scheduler Layer-2: retrieving work (`vault/gear/scheduler-commutator.hpp`)

Access to Layer-1 is coordinated through the grooming token. A thread holding it is the only one to
touch the priority queue, while other threads may still place events into the entrance queue. -/

namespace Lumiera.Vault.Gear

/-! ## The grooming token -/

/-- **Layer-2**, which is the grooming token; `none` when no thread holds it. -/
structure SchedulerCommutator (ThreadID : Type) where
  groomingToken_ : Option ThreadID
  deriving DecidableEq, Repr

namespace SchedulerCommutator

variable {ThreadID : Type} [DecidableEq ThreadID]

/-- Try to acquire the right to perform internal state transitions. -/
def acquireGroomingToken (s : SchedulerCommutator ThreadID) (thisThread : ThreadID) :
    Bool × SchedulerCommutator ThreadID :=
  if s.groomingToken_ = none then (true, ⟨some thisThread⟩) else (false, s)

/-- Relinquish this right, which the thread must hold. -/
def dropGroomingToken (s : SchedulerCommutator ThreadID) (thisThread : ThreadID) :
    Option (SchedulerCommutator ThreadID) :=
  if s.groomingToken_ = some thisThread then some ⟨none⟩ else none

/-- Does this thread hold the right at present? -/
def holdsGroomingToken (s : SchedulerCommutator ThreadID) (id : ThreadID) : Bool :=
  s.groomingToken_ = some id

end SchedulerCommutator

/-! ## Maintaining the queue head -/

variable {Q Activity ThreadID : Type}
variable [PriorityQueue Q (ActivationEvent.starting : ActivationEvent Activity → Int)]

namespace SchedulerInvocation

/-- The loop to discard obsolete content, with the entries discarded. The number of entries bounds
the number of rounds. -/
def discardOutdated (now : Int) : Nat → SchedulerInvocation Q Activity →
    List (ActivationEvent Activity) × SchedulerInvocation Q Activity
  | 0, layer1 => ([], layer1)
  | rounds + 1, layer1 =>
    if layer1.isOutdated now ∧ ¬ layer1.isOutOfTime now then
      let (head, layer1) := layer1.pullHead
      let (discarded, layer1) := discardOutdated now rounds layer1
      (head.toList ++ discarded, layer1)
    else ([], layer1)

/-- Discard obsolete content from the queue head. -/
def discardObsolete (layer1 : SchedulerInvocation Q Activity) (now : Int) :
    List (ActivationEvent Activity) × SchedulerInvocation Q Activity :=
  discardOutdated now (PriorityQueue.size layer1.priority_) layer1

/-- `maintainQueueHead`: the entries discarded, and `false` when a compulsory entry was missed. -/
def maintainQueueHead (layer1 : SchedulerInvocation Q Activity) (now : Int) :
    List (ActivationEvent Activity) × SchedulerInvocation Q Activity × Bool :=
  let (discarded, layer1) := layer1.feedPrioritisation.discardObsolete now
  (discarded, layer1, !layer1.isOutOfTime now)

/-- What is found by `findWork`, with the entries discarded on the way. -/
structure WorkFound (Q Activity : Type) where
  found : Option (ActivationEvent Activity)
  discarded : List (ActivationEvent Activity)
  layer1 : SchedulerInvocation Q Activity

/-- The body of `findWork`, performed by the thread with the grooming token. Meanwhile other threads
may instruct further events; those `arriving` after the first look into the entrance queue. -/
def retrieveWork (layer1 : SchedulerInvocation Q Activity) (now : Int)
    (arriving : List (ActivationEvent Activity)) : WorkFound Q Activity :=
  let (discarded, layer1) := layer1.feedPrioritisation.discardObsolete now
  let layer1 := arriving.foldl instruct layer1
  let (discarded', layer1, consistent) := layer1.maintainQueueHead now
  if !consistent then ⟨none, discarded ++ discarded', layer1⟩
  else if layer1.isDue now then
    let (head, layer1) := layer1.pullHead
    ⟨head, discarded ++ discarded', layer1⟩
  else ⟨none, discarded ++ discarded', layer1⟩

end SchedulerInvocation

namespace SchedulerCommutator

open SchedulerInvocation (WorkFound)

variable [DecidableEq ThreadID]

/-- **`findWork`**: look into the queues and possibly retrieve work due by now. -/
def findWork (s : SchedulerCommutator ThreadID) (thisThread : ThreadID)
    (layer1 : SchedulerInvocation Q Activity) (now : Int)
    (arriving : List (ActivationEvent Activity)) :
    WorkFound Q Activity × SchedulerCommutator ThreadID :=
  let (holds, s) :=
    if s.holdsGroomingToken thisThread then (true, s) else s.acquireGroomingToken thisThread
  if holds then (layer1.retrieveWork now arriving, s)
  else (⟨none, [], arriving.foldl SchedulerInvocation.instruct layer1⟩, s)

/-- **`postChain`**: place the event into the schedule. -/
def postChain (s : SchedulerCommutator ThreadID) (thisThread : ThreadID)
    (event : ActivationEvent Activity) (layer1 : SchedulerInvocation Q Activity) :
    SchedulerInvocation Q Activity :=
  if s.holdsGroomingToken thisThread then layer1.feedDirectly event else layer1.instruct event

end SchedulerCommutator

/-! ## What is discarded and what is found -/

namespace SchedulerInvocation

variable {s : SchedulerInvocation Q Activity} {now : Int}

theorem pending_foldl_instruct (es : List (ActivationEvent Activity)) (s : SchedulerInvocation Q Activity) :
    (es.foldl instruct s).pending = s.pending + (es : Multiset (ActivationEvent Activity)) := by
  induction es generalizing s with
  | nil => simp
  | cons e es ih =>
    rw [List.foldl_cons, ih, pending_instruct, ← Multiset.cons_coe, Multiset.cons_add,
      Multiset.add_cons]

omit [PriorityQueue Q (ActivationEvent.starting : ActivationEvent Activity → Int)] in
theorem allowed_foldl_instruct (es : List (ActivationEvent Activity))
    (s : SchedulerInvocation Q Activity) : (es.foldl instruct s).allowed_ = s.allowed_ := by
  induction es generalizing s with
  | nil => rfl
  | cons e es ih => exact ih _

theorem allowed_pullHead : s.pullHead.2.allowed_ = s.allowed_ := by
  cases h : s.peekHead with
  | none => rw [pullHead_of_none h]
  | some head => rw [pullHead_of_peekHead h]

/-- **What the loop discards**: entries which are outdated and need not be kept. It does not end
before the head is to be kept. -/
structure Discarding (now : Int) (s t : SchedulerInvocation Q Activity)
    (discarded : List (ActivationEvent Activity)) : Prop where
  pending : s.pending = (discarded : Multiset (ActivationEvent Activity)) + t.pending
  allowed : t.allowed_ = s.allowed_
  outdated : ∀ e ∈ discarded, s.Outdated now e ∧ ¬ s.Imperative e
  kept : ∀ head, t.peekHead = some head → ¬ s.Outdated now head ∨
    t.isOutOfTime now = true

omit [PriorityQueue Q (ActivationEvent.starting : ActivationEvent Activity → Int)] in
theorem outdated_congr {t : SchedulerInvocation Q Activity} (h : t.allowed_ = s.allowed_)
    (e : ActivationEvent Activity) : t.Outdated now e ↔ s.Outdated now e := by
  simp only [Outdated, isActivated, h]

omit [PriorityQueue Q (ActivationEvent.starting : ActivationEvent Activity → Int)] in
theorem imperative_congr {t : SchedulerInvocation Q Activity} (h : t.allowed_ = s.allowed_)
    (e : ActivationEvent Activity) : t.Imperative e ↔ s.Imperative e := by
  simp only [Imperative, isActivated, h]

theorem outdated_of_discarded {head : ActivationEvent Activity} (h : s.peekHead = some head)
    (hout : s.isOutdated now = true) (htime : ¬ s.isOutOfTime now = true) :
    s.Outdated now head ∧ ¬ s.Imperative head := by
  obtain ⟨_, hhead, houtdated⟩ := isOutdated_iff.mp hout
  rw [h] at hhead
  cases hhead
  refine ⟨houtdated, fun himp => ?_⟩
  rcases houtdated with hmissed | hinactive
  · exact htime (isOutOfTime_iff.mpr ⟨head, h, hmissed, himp⟩)
  · rw [himp.2] at hinactive
    cases hinactive

/-- The loop to discard obsolete content, with as many rounds as there are entries. -/
theorem discardOutdated_spec (now : Int) (rounds : Nat) (s : SchedulerInvocation Q Activity)
    (hrounds : PriorityQueue.size s.priority_ ≤ rounds) :
    Discarding now s (discardOutdated now rounds s).2 (discardOutdated now rounds s).1 := by
  induction rounds generalizing s with
  | zero =>
    have hnone : s.peekHead = none :=
      PriorityQueue.top?_eq_none_iff.mpr (Multiset.card_eq_zero.mp (Nat.le_zero.mp hrounds))
    refine ⟨by simp [discardOutdated], rfl, nofun, fun head hhead => ?_⟩
    rw [discardOutdated, hnone] at hhead
    cases hhead
  | succ rounds ih =>
    by_cases hcond : s.isOutdated now = true ∧ ¬ s.isOutOfTime now = true
    · obtain ⟨head, hhead, -⟩ := isOutdated_iff.mp hcond.1
      obtain ⟨hout, himp⟩ := outdated_of_discarded hhead hcond.1 hcond.2
      have hpull := pullHead_of_peekHead hhead
      have hsize : PriorityQueue.size s.pullHead.2.priority_ ≤ rounds := by
        have := PriorityQueue.size_pop hhead
        rw [hpull]
        change PriorityQueue.size (PriorityQueue.pop s.priority_) ≤ rounds
        omega
      have hrec := ih s.pullHead.2 hsize
      have hstep : discardOutdated now (rounds + 1) s =
          (s.pullHead.1.toList ++ (discardOutdated now rounds s.pullHead.2).1,
            (discardOutdated now rounds s.pullHead.2).2) := by
        rw [discardOutdated, if_pos hcond]
      rw [hstep]
      refine ⟨?_, hrec.allowed.trans allowed_pullHead, fun e he => ?_, fun h hh => ?_⟩
      · rw [pending_pullHead, hrec.pending, ← Multiset.coe_add, add_assoc]
      · rcases List.mem_append.mp he with he | he
        · rw [hpull] at he
          obtain rfl : e = head := by simpa using he
          exact ⟨hout, himp⟩
        · rw [← outdated_congr allowed_pullHead, ← imperative_congr allowed_pullHead]
          exact hrec.outdated e he
      · rw [← outdated_congr allowed_pullHead]
        exact hrec.kept h hh
    · have hstep : discardOutdated now (rounds + 1) s = ([], s) := by
        rw [discardOutdated, if_neg hcond]
      rw [hstep]
      refine ⟨by simp, rfl, nofun, fun head hhead => ?_⟩
      by_cases hout : s.Outdated now head
      · exact .inr (not_not.mp fun htime =>
          hcond ⟨isOutdated_iff.mpr ⟨head, hhead, hout⟩, htime⟩)
      · exact .inl hout

theorem instruct_discardOutdated (rounds : Nat) (s : SchedulerInvocation Q Activity) :
    (discardOutdated now rounds s).2.instruct_ = s.instruct_ := by
  induction rounds generalizing s with
  | zero => rfl
  | succ rounds ih =>
    rw [discardOutdated]
    split
    · exact (ih s.pullHead.2).trans instruct_pullHead
    · rfl

theorem discardObsolete_spec (s : SchedulerInvocation Q Activity) (now : Int) :
    Discarding now s (s.feedPrioritisation.discardObsolete now).2
      (s.feedPrioritisation.discardObsolete now).1 ∧
      (s.feedPrioritisation.discardObsolete now).2.instruct_ = [] := by
  have h : Discarding now s.feedPrioritisation _ _ := discardOutdated_spec now
    (PriorityQueue.size s.feedPrioritisation.priority_) s.feedPrioritisation le_rfl
  refine ⟨⟨?_, h.allowed, fun e he => ?_, fun head hhead => ?_⟩, instruct_discardOutdated _ _⟩
  · rw [← pending_feedPrioritisation]
    exact h.pending
  · exact h.outdated e he
  · exact h.kept head hhead

/-- **What `findWork` does with the queues.** -/
structure Retrieving (now : Int) (s : SchedulerInvocation Q Activity)
    (arriving : List (ActivationEvent Activity)) (r : WorkFound Q Activity) : Prop where
  /-- Each entry is found, discarded, or still waiting. -/
  pending : s.pending + (arriving : Multiset (ActivationEvent Activity)) =
    (r.found.toList : Multiset (ActivationEvent Activity)) +
      (r.discarded : Multiset (ActivationEvent Activity)) + r.layer1.pending
  allowed : r.layer1.allowed_ = s.allowed_
  discarded : ∀ e ∈ r.discarded, s.Outdated now e ∧ ¬ s.Imperative e
  /-- What is found is due and not outdated, and none of the entries prioritised is earlier. -/
  found : ∀ e, r.found = some e → e.starting ≤ now ∧ ¬ s.Outdated now e ∧
    ∀ x ∈ PriorityQueue.content r.layer1.priority_, e.starting ≤ x.starting
  /-- Either the queue is out of time, or there is an entry in front which is not outdated. -/
  late : r.layer1.isOutOfTime now = true ∨ ∀ e ∈ r.layer1.pending,
    ∃ head, (r.found = some head ∨ r.layer1.peekHead = some head) ∧
      head.starting ≤ e.starting ∧ ¬ s.Outdated now head

/-- The body of `findWork`, step by step. -/
theorem retrieveWork_spec (s : SchedulerInvocation Q Activity) (now : Int)
    (arriving : List (ActivationEvent Activity)) : Retrieving now s arriving (s.retrieveWork now arriving) := by
  obtain ⟨h₁, -⟩ := discardObsolete_spec s now
  set d₁ := s.feedPrioritisation.discardObsolete now with hd₁
  obtain ⟨h₂, hfed⟩ := discardObsolete_spec (arriving.foldl instruct d₁.2) now
  set d₂ := (arriving.foldl instruct d₁.2).feedPrioritisation.discardObsolete now with hd₂
  have hallowed₁ : (arriving.foldl instruct d₁.2).allowed_ = s.allowed_ :=
    (allowed_foldl_instruct _ _).trans h₁.allowed
  have hallowed : d₂.2.allowed_ = s.allowed_ := h₂.allowed.trans hallowed₁
  have hpending : s.pending + (arriving : Multiset (ActivationEvent Activity)) =
      ((d₁.1 ++ d₂.1 : List (ActivationEvent Activity)) : Multiset (ActivationEvent Activity)) +
        d₂.2.pending := by
    rw [h₁.pending, add_assoc, ← pending_foldl_instruct, h₂.pending, ← Multiset.coe_add, add_assoc]
  have hdiscarded : ∀ e ∈ d₁.1 ++ d₂.1, s.Outdated now e ∧ ¬ s.Imperative e := by
    intro e he
    rcases List.mem_append.mp he with he | he
    · exact h₁.outdated e he
    · rw [← outdated_congr hallowed₁, ← imperative_congr hallowed₁]
      exact h₂.outdated e he
  -- the head left at the end is not outdated, unless the queue is out of time
  have hkept : ¬ d₂.2.isOutOfTime now = true → ∀ head, d₂.2.peekHead = some head →
      ¬ s.Outdated now head := by
    intro htime head hhead
    rw [← outdated_congr hallowed₁]
    exact (h₂.kept head hhead).resolve_right htime
  have hcontent : d₂.2.pending = PriorityQueue.content d₂.2.priority_ := by
    rw [SchedulerInvocation.pending, hfed]
    simp
  have hunfold : s.retrieveWork now arriving =
      if (!(!d₂.2.isOutOfTime now)) = true then ⟨none, d₁.1 ++ d₂.1, d₂.2⟩
      else if d₂.2.isDue now = true then ⟨d₂.2.pullHead.1, d₁.1 ++ d₂.1, d₂.2.pullHead.2⟩
      else ⟨none, d₁.1 ++ d₂.1, d₂.2⟩ := rfl
  rw [hunfold, Bool.not_not]
  by_cases htime : d₂.2.isOutOfTime now = true
  · rw [if_pos htime]
    exact ⟨by simpa using hpending, hallowed, hdiscarded, fun _ hfound => (by cases hfound), .inl htime⟩
  rw [if_neg htime]
  by_cases hdue : d₂.2.isDue now = true
  · rw [if_pos hdue]
    obtain ⟨head, hhead, hstart⟩ := isDue_iff.mp hdue
    have hpull := pullHead_of_peekHead hhead
    have hfirst : ∀ x ∈ PriorityQueue.content d₂.2.pullHead.2.priority_,
        head.starting ≤ x.starting := by
      intro x hx
      refine PriorityQueue.le_of_top? d₂.2.priority_ head hhead x ?_
      rw [content_pullHead]
      exact Multiset.mem_add.mpr (.inr hx)
    refine ⟨?_, allowed_pullHead.trans hallowed, hdiscarded, fun e he => ?_, .inr fun e he => ?_⟩
    · rw [hpending, pending_pullHead, ← add_assoc]
      exact congrArg (· + d₂.2.pullHead.2.pending) (add_comm _ _)
    · rw [hpull] at he
      cases he
      exact ⟨hstart, hkept htime head hhead, hfirst⟩
    · refine ⟨head, .inl (by rw [hpull]), hfirst e ?_, hkept htime head hhead⟩
      rwa [SchedulerInvocation.pending, instruct_pullHead, hfed, Multiset.coe_nil, zero_add] at he
  · rw [if_neg hdue]
    refine ⟨by simpa using hpending, hallowed, hdiscarded, fun _ hfound => (by cases hfound), .inr fun e he => ?_⟩
    cases hhead : d₂.2.peekHead with
    | none =>
      rw [hcontent, PriorityQueue.top?_eq_none _ hhead] at he
      exact absurd he (Multiset.notMem_zero e)
    | some head =>
      rw [hcontent] at he
      exact ⟨head, .inr rfl, PriorityQueue.le_of_top? _ head hhead e he, hkept htime head hhead⟩

end SchedulerInvocation

namespace SchedulerCommutator

open SchedulerInvocation (WorkFound Retrieving)

variable [DecidableEq ThreadID]

/-- **`findWork`** looks into the queues if the thread holds or acquires the grooming token, and then
still holds it afterwards; otherwise it leaves everything as it is. -/
theorem findWork_spec (s : SchedulerCommutator ThreadID) (thisThread : ThreadID)
    (layer1 : SchedulerInvocation Q Activity) (now : Int)
    (arriving : List (ActivationEvent Activity)) :
    (s.findWork thisThread layer1 now arriving).2.holdsGroomingToken thisThread = true ∧
        Retrieving now layer1 arriving (s.findWork thisThread layer1 now arriving).1 ∨
      s.findWork thisThread layer1 now arriving =
        (⟨none, [], arriving.foldl SchedulerInvocation.instruct layer1⟩, s) ∧
        s.holdsGroomingToken thisThread = false := by
  unfold findWork
  cases hholds : s.holdsGroomingToken thisThread with
  | true => exact .inl ⟨hholds, SchedulerInvocation.retrieveWork_spec layer1 now arriving⟩
  | false =>
    by_cases hfree : s.groomingToken_ = none
    · have hacquire : s.acquireGroomingToken thisThread = (true, ⟨some thisThread⟩) := if_pos hfree
      rw [hacquire]
      exact .inl ⟨by simp [holdsGroomingToken],
        SchedulerInvocation.retrieveWork_spec layer1 now arriving⟩
    · have hacquire : s.acquireGroomingToken thisThread = (false, s) := if_neg hfree
      rw [hacquire]
      exact .inr ⟨rfl, rfl⟩

end SchedulerCommutator

end Lumiera.Vault.Gear
