import Lumiera.Vault.Gear.WorkForce

/-! # The grooming token is not hogged

A thread which accesses what is protected by the token holds it, and a worker which sleeps, is sent
idle or terminates does not. There is one exit from the loop of the worker which does not ensure
this: the emergency break is checked right after `dispatchCapacity` returned, and when the result is
PASS, the token may be retained. -/

namespace Lumiera.Vault.Gear

variable {ThreadID : Type} [DecidableEq ThreadID]

/-! ## Effects on the token -/

namespace SchedulerCommutator

variable {s : SchedulerCommutator ThreadID} {t u : ThreadID}

theorem holds_acquire (h : s.holdsGroomingToken t = false) :
    (s.acquireGroomingToken t).2.holdsGroomingToken t = (s.acquireGroomingToken t).1 := by
  unfold acquireGroomingToken
  split
  · simp [holdsGroomingToken]
  · exact h

theorem holds_acquire_of_ne (hu : u ≠ t) :
    (s.acquireGroomingToken t).2.holdsGroomingToken u = s.holdsGroomingToken u := by
  unfold acquireGroomingToken
  split
  · next hfree => simp [holdsGroomingToken, hfree, hu.symm]
  · rfl

theorem holds_holdsOrAcquires : (s.holdsOrAcquires t).2.holdsGroomingToken t = (s.holdsOrAcquires t).1 := by
  unfold holdsOrAcquires
  split
  · next h => exact h
  · next h => exact holds_acquire (Bool.not_eq_true _ ▸ h)

theorem holds_holdsOrAcquires_of_ne (hu : u ≠ t) :
    (s.holdsOrAcquires t).2.holdsGroomingToken u = s.holdsGroomingToken u := by
  unfold holdsOrAcquires
  split
  · rfl
  · exact holds_acquire_of_ne hu

@[simp] theorem holds_ensureDropped : (s.ensureDropped t).holdsGroomingToken t = false := by
  unfold ensureDropped
  split
  · rfl
  · next h => exact Bool.not_eq_true _ ▸ h

theorem holds_ensureDropped_of_ne (hu : u ≠ t) :
    (s.ensureDropped t).holdsGroomingToken u = s.holdsGroomingToken u := by
  unfold ensureDropped
  split
  · next h =>
      have htoken : s.groomingToken_ = some t := of_decide_eq_true h
      simp [holdsGroomingToken, htoken, hu.symm]
  · rfl

theorem holds_ite_ensureDropped_of_ne (hu : u ≠ t) (c : Prop) [Decidable c] :
    (if c then s.ensureDropped t else s).holdsGroomingToken u = s.holdsGroomingToken u := by
  split
  · exact holds_ensureDropped_of_ne hu
  · rfl

theorem drop_eq_some {s' : SchedulerCommutator ThreadID} (h : s.dropGroomingToken t = some s') :
    s.holdsGroomingToken t = true ∧ s' = s.ensureDropped t := by
  unfold dropGroomingToken at h
  split at h
  · next htoken =>
      cases h
      have hholds : s.holdsGroomingToken t = true := decide_eq_true htoken
      exact ⟨hholds, by rw [ensureDropped, if_pos hholds]⟩
  · cases h

theorem holds_leaveGuard_of_ne (hu : u ≠ t) (g : Bool) :
    (s.leaveGuard t g).holdsGroomingToken u = s.holdsGroomingToken u := by
  unfold leaveGuard
  split
  · exact holds_ensureDropped_of_ne hu
  · rfl

theorem holds_foldl_leaveGuard_of_ne (hu : u ≠ t) (guards : List Bool) (s : SchedulerCommutator ThreadID) :
    (guards.foldl (fun s g => s.leaveGuard t g) s).holdsGroomingToken u = s.holdsGroomingToken u := by
  induction guards generalizing s with
  | nil => rfl
  | cons g guards ih => exact (ih _).trans (holds_leaveGuard_of_ne hu g)

end SchedulerCommutator

open SchedulerCommutator

/-! ## What a thread may rely on -/

/-- Of several guards only the outermost one can have acquired the token. -/
def Nested : List Bool → Prop
  | [] => True
  | g :: guards => (g = true → guards = []) ∧ Nested guards

/-- **Invariant of a thread**, given whether it holds the token. -/
def Pc.Sound (holds : Bool) : Pc → Prop
  | .client guards => (guards ≠ [] → holds = true) ∧ Nested guards
  | .executing guards => (guards ≠ [] → holds = true) ∧ Nested guards
  | .feeding _ | .tending | .retrieving => holds = true
  | .guardWait _ guards => holds = false ∧ guards = []
  | .sleeping | .contentionWait | .idleWait | .exiting _ | .terminated => holds = false
  | .returned res => res ≠ .PASS → holds = false
  | _ => True

theorem Pc.Sound.of_isGrooming {pc : Pc} {holds : Bool} (h : pc.Sound holds)
    (hpc : pc.isGrooming = true) : holds = true := by
  cases pc with
  | client guards =>
    cases guards with
    | nil => cases hpc
    | cons g guards => exact h.1 (List.cons_ne_nil _ _)
  | executing guards =>
    cases guards with
    | nil => cases hpc
    | cons g guards => exact h.1 (List.cons_ne_nil _ _)
  | feeding stage => exact h
  | tending => exact h
  | retrieving => exact h
  | _ => cases hpc

theorem Pc.Sound.of_isResting {pc : Pc} {holds : Bool} (h : pc.Sound holds)
    (hpc : pc.isResting = true) : holds = false := by
  cases pc with
  | sleeping => exact h
  | guardWait atWork guards => exact h.1
  | contentionWait => exact h
  | idleWait => exact h
  | exiting isFailure => exact h
  | terminated => exact h
  | _ => cases hpc

section ThreadStep

variable {s s' : SchedulerCommutator ThreadID} {t u : ThreadID} {w w' : ThreadState}
variable {DISMISS_CYCLES CONTEND_SATURATION : Nat}

theorem enterGuard_sound {atWork : Bool} {guards : List Bool}
    (h : (guards ≠ [] → s.holdsGroomingToken t = true) ∧ Nested guards) :
    (enterGuard s t atWork guards).Sound (s.holdsGroomingToken t) := by
  unfold enterGuard
  cases hholds : s.holdsGroomingToken t with
  | true =>
    cases atWork with
    | true => exact ⟨fun _ => rfl, nofun, h.2⟩
    | false => exact ⟨fun _ => rfl, nofun, h.2⟩
  | false =>
    refine ⟨rfl, ?_⟩
    by_contra hne
    rw [hholds] at h
    exact absurd (h.1 hne) (by decide)

theorem leaveGuard_sound {g : Bool} {guards : List Bool} (hholds : s.holdsGroomingToken t = true)
    (h : Nested (g :: guards)) : (guards ≠ [] → (s.leaveGuard t g).holdsGroomingToken t = true) ∧ Nested guards := by
  refine ⟨fun hne => ?_, h.2⟩
  cases g with
  | true => exact absurd (h.1 rfl) hne
  | false => exact hholds

theorem afterWork_sound {res : Proc} (h : res ≠ .PASS → s.holdsGroomingToken t = false)
    (hreleased : w.emergency = true → s.holdsGroomingToken t = false) :
    (afterWork DISMISS_CYCLES CONTEND_SATURATION w res).pc.Sound (s.holdsGroomingToken t) := by
  unfold afterWork
  by_cases hemergency : w.emergency = true
  · rw [if_pos hemergency]
    exact hreleased hemergency
  rw [if_neg hemergency]
  cases res with
  | PASS => exact trivial
  | SKIP => exact h (by decide)
  | WAIT =>
    have hdropped := h (by decide)
    simp only [reduceCtorEq, if_false, if_true]
    split
    · exact hdropped
    · exact hdropped
  | KICK => exact h (by decide)
  | HALT => exact h (by decide)

/-- Carrying on to the next step. -/
theorem proceed_sound (h : w.pc.Sound (s.holdsGroomingToken t))
    (hreleased : ∀ res, w.pc = .returned res → w.emergency = true →
      s.holdsGroomingToken t = false)
    (hstep : proceed DISMISS_CYCLES CONTEND_SATURATION s t w = some (s', w')) :
    w'.pc.Sound (s'.holdsGroomingToken t) := by
  unfold proceed at hstep
  cases hpc : w.pc with
  | findWork =>
    simp only [hpc] at hstep
    obtain ⟨rfl, rfl⟩ := hstep
    rw [holds_holdsOrAcquires]
    cases (s.holdsOrAcquires t).1 with
    | true => rfl
    | false => trivial
  | guardWait atWork guards =>
    rw [hpc] at h
    obtain ⟨hfree, rfl⟩ := h
    simp only [hpc] at hstep
    obtain ⟨rfl, rfl⟩ := hstep
    rw [holds_acquire hfree]
    cases hgot : (s.acquireGroomingToken t).1 with
    | true =>
      cases atWork with
      | true => exact ⟨fun _ => rfl, fun _ => rfl, trivial⟩
      | false => exact ⟨fun _ => rfl, fun _ => rfl, trivial⟩
    | false =>
      simp only [Bool.false_eq_true, if_false, hpc]
      exact ⟨rfl, rfl⟩
  | completed lastResult =>
    simp only [hpc] at hstep
    obtain ⟨rfl, rfl⟩ := hstep
    intro hres
    rw [if_pos hres]
    exact holds_ensureDropped
  | returned res =>
    rw [hpc] at h
    simp only [hpc] at hstep
    obtain ⟨rfl, rfl⟩ := hstep
    exact afterWork_sound h (hreleased res hpc)
  | targetedSleep =>
    simp only [hpc] at hstep
    obtain ⟨rfl, rfl⟩ := hstep
    exact holds_ensureDropped
  | unwinding =>
    simp only [hpc] at hstep
    obtain ⟨rfl, rfl⟩ := hstep
    exact holds_ensureDropped
  | exiting isFailure =>
    rw [hpc] at h
    simp only [hpc] at hstep
    obtain ⟨rfl, rfl⟩ := hstep
    exact h
  | _ =>
    simp only [hpc, reduceCtorEq] at hstep
    all_goals
      obtain ⟨rfl, rfl⟩ := hstep
      trivial

theorem raise_sound (hstep : raise s t w = some (s', w')) : w'.pc.Sound (s'.holdsGroomingToken t) := by
  unfold raise at hstep
  split at hstep
  all_goals first
    | cases hstep; exact trivial
    | cases hstep

theorem scatteredDelay_sound (stage : Stage) (c : Capacity) (holds : Bool) :
    (scatteredDelay stage c).Sound holds := by
  cases c <;> cases stage <;> trivial

/-- Each step of a thread keeps its invariant, unless it retains the token in emergency. -/
theorem threadStep_sound {move : Move} (h : w.pc.Sound (s.holdsGroomingToken t))
    (hreleased : ∀ res, w.pc = .returned res → move = .proceed → w.emergency = true →
      s.holdsGroomingToken t = false)
    (hstep : threadStep DISMISS_CYCLES CONTEND_SATURATION s t w move = some (s', w')) :
    w'.pc.Sound (s'.holdsGroomingToken t) := by
  unfold threadStep at hstep
  split at hstep
  case h_1 => exact proceed_sound h (fun res hpc => hreleased res hpc rfl) hstep
  case h_2 => exact raise_sound hstep
  case h_3 =>
    cases hstep
    exact h
  case h_4 hpc =>
    cases hstep
    trivial
  case h_5 pending stage hpc =>
    split at hstep
    · cases hstep
      rw [holds_holdsOrAcquires]
      cases (s.holdsOrAcquires t).1 with
      | true => rfl
      | false => trivial
    · cases hstep
      trivial
  case h_6 c stage hpc =>
    cases hstep
    exact scatteredDelay_sound stage c _
  case h_7 tended hpc =>
    split at hstep
    · cases hstep
      trivial
    · cases hstep
      rw [holds_holdsOrAcquires]
      cases (s.holdsOrAcquires t).1 with
      | true => rfl
      | false => trivial
  case h_8 found hpc =>
    cases hstep
    cases found with
    | true => exact ⟨nofun, trivial⟩
    | false => trivial
  case h_9 hpc =>
    simp only [Option.bind_eq_bind, Option.bind_eq_some_iff] at hstep
    obtain ⟨_, hdrop, ⟨⟩⟩ := hstep
    rw [hpc]
    exact ⟨nofun, trivial⟩
  case h_10 res hpc =>
    cases hstep
    cases res <;> trivial
  case h_11 guards hpc =>
    cases hstep
    rw [hpc] at h
    exact enterGuard_sound h
  case h_12 g guards hpc =>
    cases hstep
    rw [hpc] at h
    exact leaveGuard_sound (h.1 (List.cons_ne_nil _ _)) h.2
  case h_13 guards hpc =>
    cases hstep
    rw [hpc] at h
    exact enterGuard_sound h
  case h_14 g guards hpc =>
    cases hstep
    rw [hpc] at h
    exact leaveGuard_sound (h.1 (List.cons_ne_nil _ _)) h.2
  case h_15 hpc =>
    cases hstep
    rw [hpc]
    exact ⟨nofun, trivial⟩
  case h_16 hpc =>
    simp only [Option.bind_eq_bind, Option.bind_eq_some_iff] at hstep
    obtain ⟨_, hdrop, ⟨⟩⟩ := hstep
    rw [hpc]
    exact ⟨nofun, trivial⟩
  case h_17 => cases hstep

/-- Frame: a step of a thread neither gives the token to another thread nor takes it away. -/
theorem threadStep_other {move : Move} (hu : u ≠ t)
    (hstep : threadStep DISMISS_CYCLES CONTEND_SATURATION s t w move = some (s', w')) :
    s'.holdsGroomingToken u = s.holdsGroomingToken u := by
  have hdrop : ∀ {r : ThreadState}, (do
      let s' ← s.dropGroomingToken t
      return (s', r)) = some (s', w') → s'.holdsGroomingToken u = s.holdsGroomingToken u := by
    intro r hbind
    simp only [Option.bind_eq_bind, Option.bind_eq_some_iff] at hbind
    obtain ⟨_, hdrop, ⟨⟩⟩ := hbind
    obtain ⟨-, rfl⟩ := drop_eq_some hdrop
    exact holds_ensureDropped_of_ne hu
  unfold threadStep at hstep
  split at hstep
  case h_1 =>
    unfold proceed at hstep
    split at hstep
    all_goals cases hstep
    all_goals first
      | rfl
      | exact holds_ensureDropped_of_ne hu
      | exact holds_holdsOrAcquires_of_ne hu
      | exact holds_acquire_of_ne hu
      | exact holds_ite_ensureDropped_of_ne hu _
  case h_2 =>
    unfold raise at hstep
    split at hstep
    all_goals cases hstep
    all_goals first
      | rfl
      | exact holds_foldl_leaveGuard_of_ne hu _ s
  case h_5 =>
    split at hstep
    · cases hstep
      exact holds_holdsOrAcquires_of_ne hu
    · cases hstep
      rfl
  case h_7 =>
    split at hstep
    · cases hstep
      rfl
    · cases hstep
      exact holds_holdsOrAcquires_of_ne hu
  case h_9 => exact hdrop hstep
  case h_12 =>
    cases hstep
    exact holds_leaveGuard_of_ne hu _
  case h_14 =>
    cases hstep
    exact holds_leaveGuard_of_ne hu _
  case h_15 =>
    cases hstep
    exact holds_acquire_of_ne hu
  case h_16 => exact hdrop hstep
  all_goals first
    | cases hstep; rfl
    | cases hstep

end ThreadStep

/-! ## All threads -/

namespace Grooming

variable {s t : Grooming ThreadID} {DISMISS_CYCLES CONTEND_SATURATION : Nat}
variable {isClient : ThreadID → Bool}

/-- Each thread keeps its invariant. -/
def Sound (s : Grooming ThreadID) : Prop :=
  ∀ u, (s.threads u).pc.Sound (s.layer2.holdsGroomingToken u)

/-- **The token is released in emergency**: a worker whose emergency break is triggered does not hold
the token when `dispatchCapacity` returned. -/
def Released (s : Grooming ThreadID) (a : ThreadID × Move) : Prop :=
  match (s.threads a.1).pc with
  | .returned _ => a.2 = .proceed → (s.threads a.1).emergency = true →
      s.layer2.holdsGroomingToken a.1 = false
  | _ => True

instance (s : Grooming ThreadID) (a : ThreadID × Move) : Decidable (Released s a) := by
  unfold Released
  split <;> infer_instance

theorem sound_initial : Sound (initial isClient) := by
  intro u
  simp only [initial]
  cases isClient u with
  | true => exact ⟨nofun, trivial⟩
  | false => rfl

theorem Sound.step (h : s.Sound) {a : ThreadID × Move} (hreleased : Released s a)
    (hstep : s.step DISMISS_CYCLES CONTEND_SATURATION a = some t) : t.Sound := by
  simp only [Grooming.step, Option.bind_eq_bind, Option.bind_eq_some_iff] at hstep
  obtain ⟨⟨layer2, w⟩, hthread, ⟨⟩⟩ := hstep
  intro u
  by_cases hu : u = a.1
  · subst hu
    dsimp only
    rw [Function.update_self]
    refine threadStep_sound (h a.1) (fun res hpc hmove hemergency => ?_) hthread
    unfold Released at hreleased
    rw [hpc] at hreleased
    exact hreleased hmove hemergency
  · dsimp only
    rw [Function.update_of_ne hu, threadStep_other hu hthread]
    exact h u

theorem sound_invariant :
    ((machine DISMISS_CYCLES CONTEND_SATURATION isClient).restrict Released).Invariant Sound where
  init s hs := by
    obtain rfl : s = initial isClient := hs
    exact sound_initial
  step _ _ _ h hstep := h.step hstep.1 hstep.2

/-- **The grooming token protocol.** In every run which releases the token in emergency, at most one
thread is grooming, which is the one holding the token; a worker which sleeps, is sent idle or leaves
its loop does not hold the token; and when all threads are at rest, anyone can acquire it. -/
theorem groomingToken_protocol
    (hs : ((machine DISMISS_CYCLES CONTEND_SATURATION isClient).restrict Released).Reachable s) :
    (∀ t u, (s.threads t).pc.isGrooming = true → (s.threads u).pc.isGrooming = true → t = u) ∧
      (∀ t, (s.threads t).pc.isGrooming = true → s.layer2.holdsGroomingToken t = true) ∧
      (∀ t, (s.threads t).pc.isResting = true → s.layer2.holdsGroomingToken t = false) ∧
      ((∀ t, (s.threads t).pc.isResting = true) →
        ∀ t, (s.layer2.acquireGroomingToken t).1 = true) := by
  have h : s.Sound := sound_invariant.reachable hs
  refine ⟨fun t u ht hu => ?_, fun t => (h t).of_isGrooming, fun t => (h t).of_isResting,
    fun hall t => ?_⟩
  · have htoken : s.layer2.groomingToken_ = some t := of_decide_eq_true ((h t).of_isGrooming ht)
    have huser : s.layer2.groomingToken_ = some u := of_decide_eq_true ((h u).of_isGrooming hu)
    exact Option.some.inj (htoken.symm.trans huser)
  · unfold acquireGroomingToken
    cases htoken : s.layer2.groomingToken_ with
    | none => rfl
    | some u =>
      have hholds : s.layer2.holdsGroomingToken u = true := decide_eq_true htoken
      rw [(h u).of_isResting (hall u)] at hholds
      cases hholds

/-- The steps of a worker which retrieves and performs some activities, and retains the token. -/
def retainToken (t : ThreadID) : List (ThreadID × Move) :=
  [.spawn, .proceed, .pendingInput false, .capacity .DISPATCH, .proceed, .found true,
    .executed .PASS, .pendingInput false, .capacity .DISPATCH, .proceed].map (t, ·)

/-- One worker retrieves work while another one is sleeping. -/
theorem groomingToken_protocol_retained : ∃ s : Grooming Nat, s.layer2.holdsGroomingToken 1 = true ∧
    (s.threads 2).pc.isResting = true ∧ s.layer2.holdsGroomingToken 2 = false := by
  obtain ⟨t, hreach, ht⟩ := Machine.exists_restrict_reachable_of_exec Released (step 100 12)
    (initial fun _ => false)
    (retainToken 1 ++ [.spawn, .proceed, .pendingInput true, .capacity .NEARTIME, .proceed].map (2, ·))
    (fun t => t.layer2.holdsGroomingToken 1 && (t.threads 2).pc.isResting) (by decide)
  simp only [Bool.and_eq_true] at ht
  exact ⟨t, ht.1, ht.2, (groomingToken_protocol hreach).2.2.1 2 ht.2⟩

/-- A worker retaining the token, whose emergency break is triggered, takes it along. -/
theorem groomingToken_taken_along : ¬ ∀ s : Grooming Nat, (machine 100 12 fun _ => false).Reachable s → ∀ t,
    (s.threads t).pc = .terminated → s.layer2.holdsGroomingToken t = false := by
  intro hclaim
  obtain ⟨t, hreach, ht⟩ := Machine.exists_reachable_of_exec (step 100 12) (initial fun _ => false)
    (retainToken 1 ++ [(1, .brake), (1, .proceed), (1, .proceed)])
    (fun t => decide ((t.threads 1).pc = .terminated) && t.layer2.holdsGroomingToken 1) (by decide)
  simp only [Bool.and_eq_true, decide_eq_true_eq] at ht
  have hfree := hclaim t hreach 1 ht.1
  rw [ht.2] at hfree
  cases hfree

end Grooming

end Lumiera.Vault.Gear
