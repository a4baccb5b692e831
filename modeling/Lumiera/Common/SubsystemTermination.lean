import Lumiera.Common.SubsystemRunner
import Mathlib.Data.List.Nodup

/-! # The list of running subsystems

The runner's list is right as long as no subsystem is started while a termination signal of an
earlier start of it is outstanding: this signal would take the new start off the list. Everything in
the list has been told to shut down once some subsystem has signalled termination, as long as no
subsystem is started successfully thereafter, since the runner does not tell it. -/

namespace Lumiera.Common

open Function List

universe u

variable {ι : Type u} {G : SubsysGraph ι}

namespace SubsystemRunner

/-! ## Listing what was started -/

/-- **The list is right**: it holds each subsystem once which was started successfully and has not
signalled termination; such a subsystem is running until it resets its running state, and will
signal termination but once. -/
structure Listed (running_ : List ι) (isRunning : ι → Bool) (started ceased astray : ι → ℕ) : Prop where
  nodup : running_.Nodup
  mem_iff : ∀ susy, susy ∈ running_ ↔ started susy ≠ 0
  once : ∀ susy, started susy ≤ 1
  ceased_le : ∀ susy, ceased susy ≤ started susy
  isRunning_iff : ∀ susy, isRunning susy = true ↔ ceased susy < started susy
  astray_eq : ∀ susy, started susy ≠ 0 → astray susy = 0

variable [DecidableEq ι] {running_ : List ι} {isRunning : ι → Bool} {started ceased astray : ι → ℕ} {susy : ι}

section Listed

variable (h : Listed running_ isRunning started ceased astray)

include h

theorem Listed.start (hstarted : started susy = 0)
    (hastray : astray susy = 0) :
    Listed (running_ ++ [susy]) (update isRunning susy true)
      (update started susy (started susy + 1)) ceased astray where
  nodup := by
    have hnot : susy ∉ running_ := fun hmem => (h.mem_iff susy).mp hmem hstarted
    exact nodup_append'.mpr ⟨h.nodup, nodup_singleton susy, by simpa using hnot⟩
  mem_iff x := by
    rw [mem_append, h.mem_iff, update_apply]
    split <;> simp_all
  once x := by
    rw [update_apply]
    split
    · omega
    · exact h.once x
  ceased_le x := by
    have hle := h.ceased_le x
    rw [update_apply]
    split
    · simp_all
    · exact hle
  isRunning_iff x := by
    have hle := h.ceased_le x
    rw [update_apply, update_apply]
    split
    · rename_i heq
      subst heq
      simp only [true_iff]
      omega
    · exact h.isRunning_iff x
  astray_eq x hx := by
    by_cases heq : x = susy
    · rw [heq, hastray]
    · rw [update_of_ne heq] at hx
      exact h.astray_eq x hx

theorem Listed.cease
    (hrunning : isRunning susy = true) :
    Listed running_ (update isRunning susy false) started
      (update ceased susy (ceased susy + 1)) astray where
  nodup := h.nodup
  mem_iff := h.mem_iff
  once := h.once
  ceased_le x := by
    rw [update_apply]
    split
    · rename_i heq
      rw [heq]
      exact (h.isRunning_iff susy).mp hrunning
    · exact h.ceased_le x
  isRunning_iff x := by
    rw [update_apply, update_apply]
    split
    · rename_i heq
      have honce := h.once susy
      subst heq
      simp only [Bool.false_eq_true, false_iff]
      omega
    · exact h.isRunning_iff x
  astray_eq := h.astray_eq

theorem Listed.sigTerm (hceased : ceased susy ≠ 0) :
    Listed (running_.filter (· ≠ susy)) isRunning (update started susy (started susy - 1))
      (update ceased susy (ceased susy - 1)) astray := by
  have hle := h.ceased_le susy
  have honce := h.once susy
  have hstopped := h.isRunning_iff susy
  refine ⟨h.nodup.filter _, fun x => ?_, fun x => ?_, fun x => ?_, fun x => ?_, fun x hx => ?_⟩
  · rw [mem_filter, h.mem_iff, update_apply]
    split <;> simp_all
  · rw [update_apply]
    split
    · omega
    · exact h.once x
  · rw [update_apply, update_apply]
    split
    · omega
    · exact h.ceased_le x
  · rw [update_apply, update_apply]
    split
    · rename_i heq
      rw [heq, hstopped]
      omega
    · exact h.isRunning_iff x
  · by_cases heq : x = susy
    · rw [heq] at hx ⊢
      exact h.astray_eq susy (by omega)
    · rw [update_of_ne heq] at hx
      exact h.astray_eq x hx

theorem Listed.sigTerm_astray
    (hstarted : started susy = 0)
    {astray' : ι → ℕ} (hastray : ∀ x ≠ susy, astray' x = astray x) :
    Listed (running_.filter (· ≠ susy)) isRunning started ceased astray' := by
  have hkept : running_.filter (· ≠ susy) = running_ := by
    apply filter_eq_self.mpr
    intro x hx
    have hne : x ≠ susy := fun heq => (h.mem_iff x).mp hx (heq ▸ hstarted)
    simpa using hne
  rw [hkept]
  refine ⟨h.nodup, h.mem_iff, h.once, h.ceased_le, h.isRunning_iff, fun x hx => ?_⟩
  rw [hastray x fun heq => hx (heq ▸ hstarted)]
  exact h.astray_eq x hx

end Listed

/-! ## Telling what is listed -/

/-- Everything in the list has been told to shut down once some subsystem has signalled termination. -/
def Told (w : SubsystemRunner ι) : Prop := w.signalled = true → ∀ susy ∈ w.running_, w.told susy = true

/-- The list is right and, where required, told to shut down. -/
def Regular (w : SubsystemRunner ι) : Prop :=
  Listed w.running_ w.isRunning w.started w.ceased w.astray ∧ Told w

/-- **A start which comes at the wrong time.** A successful one: when a signal of the subsystem is
outstanding, or when some subsystem has signalled termination already, and the runner does not tell
the new one to shut down on account of its prerequisites. One without success, but with a signal:
when the subsystem is in the list. -/
def Untimely (G : SubsysGraph ι) (w : SubsystemRunner ι) (susy : ι) : StartOutcome → Prop
  | .running =>
    w.started susy ≠ 0 ∨ w.astray susy ≠ 0 ∨
      (w.signalled = true ∧ ∀ prereq ∈ G.getPrerequisites susy, w.isRunning prereq = true)
  | .failed _ signal => signal ≠ .none ∧ w.started susy ≠ 0

/-- The action is not an untimely start. -/
def Timely (G : SubsysGraph ι) (w : SubsystemRunner ι) : Action ι → Prop
  | .start outcome =>
    match w.stack with
    | ⟨susy, [], _⟩ :: _ => ¬ Untimely G w susy outcome
    | _ => True
  | _ => True

instance (w : SubsystemRunner ι) (susy : ι) : (outcome : StartOutcome) → Decidable (Untimely G w susy outcome)
  | .running => inferInstanceAs (Decidable (_ ∨ _ ∨ _))
  | .failed _ _ => inferInstanceAs (Decidable (_ ∧ _))

instance (w : SubsystemRunner ι) : (a : Action ι) → Decidable (Timely G w a)
  | .start outcome =>
    match h : w.stack with
    | [] => isTrue (by simp [Timely, h])
    | ⟨susy, [], since⟩ :: outer => decidable_of_iff (¬ Untimely G w susy outcome) (by simp [Timely, h])
    | ⟨susy, _ :: _, _⟩ :: _ => isTrue (by simp [Timely, h])
  | .maybeRun .. | .triggerNext | .cease .. | .sigTerm .. | .shutdownAll => isTrue trivial

variable {w w' : SubsystemRunner ι}

theorem told_sigTerm (w : SubsystemRunner ι) (susy : ι) (problem : Bool) : Told (w.sigTerm susy problem) := by
  intro _ x hx
  rw [sigTerm_eq] at hx ⊢
  simp only [hx, decide_true, Bool.true_or]

theorem told_shutdownAll (w : SubsystemRunner ι) : Told w.shutdownAll := by
  intro _ x hx
  rw [shutdownAll_eq] at hx ⊢
  simp only [hx, decide_true, Bool.true_or]

theorem Regular.checkPrerequisites (h : Regular w) (susy : ι) :
    Regular (SubsystemRunner.checkPrerequisites G w susy) := by
  obtain ⟨hlisted, htold⟩ := h
  rw [checkPrerequisites_eq]
  split
  · exact ⟨hlisted, htold⟩
  · refine ⟨hlisted, fun hsignalled x hx => ?_⟩
    have hx := htold hsignalled x hx
    by_cases heq : x = susy
    · simp [heq]
    · simpa [heq] using hx

theorem Regular.callStart_failed (h : Regular w) {result : Option Bool} {signal : TermSignal}
    (htimely : ¬ Untimely G w susy (.failed result signal)) : Regular (w.callStart susy (.failed result signal)) := by
  cases signal with
  | none => exact h
  | «within» problem =>
    have hstarted : w.started susy = 0 := by
      simpa [Untimely] using htimely
    refine ⟨?_, told_sigTerm w susy problem⟩
    rw [callStart, sigTerm_eq]
    exact h.1.sigTerm_astray hstarted fun _ _ => rfl
  | later =>
    have hstarted : w.started susy = 0 := by
      simpa [Untimely] using htimely
    refine ⟨⟨h.1.nodup, h.1.mem_iff, h.1.once, h.1.ceased_le, h.1.isRunning_iff, fun x hx => ?_⟩, h.2⟩
    by_cases heq : x = susy
    · exact absurd (heq ▸ hstarted) hx
    · simpa [callStart, heq] using h.1.astray_eq x hx

theorem Regular.start_running (h : Regular w)
    (htimely : ¬ Untimely G w susy .running) :
    Regular (SubsystemRunner.checkPrerequisites G
      { w.callStart susy .running with running_ := (w.callStart susy .running).running_ ++ [susy] }
      susy) := by
  simp only [Untimely, not_or, not_and, not_not] at htimely
  obtain ⟨hstarted, hastray, hsignalled⟩ := htimely
  have hlisted := h.1.start hstarted hastray
  rw [checkPrerequisites_eq]
  split
  · rename_i hall
    refine ⟨hlisted, fun hsig => ?_⟩
    -- no prerequisite of the subsystem is the subsystem itself
    refine absurd (fun prereq hprereq => ?_) (hsignalled hsig)
    have hne : prereq ≠ susy := fun heq => G.acyclic susy (.single (heq ▸ hprereq))
    have hrunning := all_eq_true.mp hall prereq hprereq
    simpa [callStart, hne] using hrunning
  · refine ⟨hlisted, fun hsig x hx => ?_⟩
    by_cases heq : x = susy
    · simp [heq]
    · have hx : x ∈ w.running_ := by simpa [callStart, heq] using hx
      simpa [callStart, heq] using h.2 hsig x hx

/-! ## The list is right in every run -/

theorem regular_start {outcome : StartOutcome} (hregular : Regular w) (htimely : Timely G w (.start outcome))
    (h : start G w outcome = some w') : Regular w' := by
  unfold start at h
  split at h
  · rename_i susy since outer hstack
    have htimely : ¬ Untimely G w susy outcome := by simpa [Timely, hstack] using htimely
    -- the stack and the events do not matter
    have hregular : Regular { w with stack := outer, events := w.events ++ [.start susy] } := hregular
    rcases outcome with _ | ⟨result, signal⟩
    · cases h
      exact hregular.start_running htimely
    · have hcalled : Regular (callStart { w with stack := outer, events := w.events ++ [.start susy] } susy
          (.failed result signal)) := hregular.callStart_failed (G := G) htimely
      rcases result with _ | _ | _ <;> cases h
      · exact hcalled
      · exact hcalled.checkPrerequisites susy
      · exact hcalled
  · cases h

omit [DecidableEq ι] in
theorem regular_triggerStartup (hregular : Regular w) (susy : ι) : Regular (triggerStartup G w susy) := by
  rw [triggerStartup]
  split <;> exact hregular

theorem regular_sigTerm {success problem : Bool} (hregular : Regular w)
    (h : perform G w (.sigTerm susy success problem) = some w') : Regular w' := by
  cases success with
  | true =>
    simp only [perform] at h
    split at h <;> cases h
    rename_i hcond
    refine ⟨?_, told_sigTerm _ susy problem⟩
    rw [sigTerm_eq]
    exact hregular.1.sigTerm hcond.2
  | false =>
    simp only [perform] at h
    split at h <;> cases h
    rename_i hcond
    -- a subsystem which is listed has no such signal outstanding
    have hstarted : w.started susy = 0 :=
        Decidable.byContradiction fun hne => hcond.2 (hregular.1.astray_eq susy hne)
    refine ⟨?_, told_sigTerm _ susy problem⟩
    rw [sigTerm_eq]
    exact hregular.1.sigTerm_astray hstarted fun x hx => update_of_ne hx _ _

/-- Every action which is not an untimely start keeps the list right. -/
theorem regular_perform {a : Action ι} (hregular : Regular w) (htimely : Timely G w a)
    (h : perform G w a = some w') : Regular w' := by
  cases a with
  | maybeRun susy shouldStart =>
    simp only [perform] at h
    split at h
    · cases h
    · split at h <;> cases h
      · exact regular_triggerStartup hregular susy
      · exact hregular
  | triggerNext =>
    change triggerNext G w = some w' at h
    unfold triggerNext at h
    split at h
    · rename_i susy prereq todo since outer hstack
      cases h
      have hregular : Regular { w with stack := ⟨susy, todo, since⟩ :: outer } := hregular
      exact regular_triggerStartup hregular prereq
    · cases h
  | start outcome => exact regular_start hregular htimely h
  | cease susy =>
    simp only [perform] at h
    split at h <;> cases h
    rename_i hrunning
    exact ⟨hregular.1.cease hrunning, hregular.2⟩
  | sigTerm susy success problem => exact regular_sigTerm hregular h
  | shutdownAll =>
    simp only [perform] at h
    split at h <;> cases h
    refine ⟨?_, told_shutdownAll w⟩
    rw [shutdownAll_eq]
    exact hregular.1

theorem regular_invariant (G : SubsysGraph ι) : ((machine G).restrict (Timely G)).Invariant Regular where
  init := by
    rintro w rfl
    exact ⟨⟨nodup_nil, fun _ => (by simp [initial]), fun _ => Nat.zero_le 1, fun _ => Nat.le_refl 0,
      fun _ => (by simp [initial]), fun _ _ => rfl⟩, fun hsignalled => (by cases hsignalled)⟩
  step _ _ _ hregular h := regular_perform hregular h.1 h.2

/-- What shall hold of the runner: whatever is about to be started, its prerequisites were found
running or their start was attempted; the list holds, each once, the subsystems which were started
successfully and have not yet signalled termination; and once some subsystem has signalled
termination, those in the list have been told to shut down, so that waiting is never for a subsystem
nobody told. -/
structure LifecycleHeld (G : SubsysGraph ι) (w : SubsystemRunner ι) : Prop where
  prerequisites : ∀ susy since outer, w.stack = ⟨susy, [], since⟩ :: outer →
    ∀ prereq ∈ G.getPrerequisites susy, Handled (w.events.drop since) prereq
  nodup : w.running_.Nodup
  mem_iff : ∀ susy, susy ∈ w.running_ ↔ w.started susy ≠ 0
  told : w.signalled = true → ∀ susy ∈ w.running_, w.told susy = true
  waiting : w.signalled = true → w.isWaiting = true → ∃ susy ∈ w.running_, w.told susy = true

/-- **The lifecycle of subsystems.** The order of starts is right in every run; the list and the
shutdown are right in every run without untimely starts. -/
theorem lifecycle_held (G : SubsysGraph ι) :
    (∀ w, (machine G).Reachable w → ∀ susy since outer, w.stack = ⟨susy, [], since⟩ :: outer →
      ∀ prereq ∈ G.getPrerequisites susy, Handled (w.events.drop since) prereq) ∧
    ∀ w, ((machine G).restrict (Timely G)).Reachable w → LifecycleHeld G w := by
  have hprerequisites : ∀ w, (machine G).Reachable w →
      ∀ susy since outer, w.stack = ⟨susy, [], since⟩ :: outer →
      ∀ prereq ∈ G.getPrerequisites susy, Handled (w.events.drop since) prereq :=
    fun w hw susy since outer hstack prereq => ((sound_invariant G).reachable hw).handled hstack
  refine ⟨hprerequisites, fun w hw => ?_⟩
  obtain ⟨hlisted, htold⟩ := (regular_invariant G).reachable hw
  refine ⟨hprerequisites w hw.of_restrict, hlisted.nodup, hlisted.mem_iff, htold,
    fun hsignalled hwaiting => ?_⟩
  have hne : w.running_ ≠ [] := by
    intro hnil
    simp [isWaiting, hnil] at hwaiting
  obtain ⟨susy, hmem⟩ := exists_mem_of_ne_nil _ hne
  exact ⟨susy, hmem, htold hsignalled susy hmem⟩

/-- Two subsystems, of which the second one needs the first one. -/
def firstThenSecond : SubsysGraph Bool where
  getPrerequisites second := if second then [false] else []
  acyclic susy h := by
    have hdepends : ∀ x y, Relation.TransGen (fun prereq susy => prereq ∈ if susy then [false] else []) x y →
        x = false ∧ y = true := by
      intro x y hxy
      induction hxy with
      | single hstep => grind
      | tail _ hstep ih => grind
    obtain ⟨hfalse, htrue⟩ := hdepends susy susy h
    rw [hfalse] at htrue
    cases htrue

/-- Both are started, the first one terminates; then the second one has been told to shut down. -/
theorem lifecycle_held_first_terminates :
    ∃ w, ((machine firstThenSecond).restrict (Timely firstThenSecond)).Reachable w ∧
      w.running_ = [true] ∧ w.signalled = true ∧ LifecycleHeld firstThenSecond w ∧
      ∀ susy since outer, w.stack = ⟨susy, [], since⟩ :: outer →
        ∀ prereq ∈ firstThenSecond.getPrerequisites susy, Handled (w.events.drop since) prereq := by
  obtain ⟨w, hw, hp⟩ := Machine.exists_restrict_reachable_of_exec (Timely firstThenSecond)
    (perform firstThenSecond) initial
    [.maybeRun true true, .triggerNext, .start .running, .start .running, .cease false,
    .sigTerm false true false]
    (fun w => w.running_ == [true] && w.signalled) (by decide)
  simp only [Bool.and_eq_true, beq_iff_eq] at hp
  exact ⟨w, hw, hp.1, hp.2, (lifecycle_held firstThenSecond).2 w hw,
    (lifecycle_held firstThenSecond).1 w hw.of_restrict⟩

/-- Two subsystems without prerequisites. -/
def independent : SubsysGraph Bool where
  getPrerequisites _ := []
  acyclic susy h := by
    cases h with
    | single hstep => cases hstep
    | tail _ hstep => cases hstep

/-- A subsystem started after another one has terminated is waited for, but nobody told it to shut
down; and a subsystem started again before its termination signal arrives is listed twice, and then
taken off the list while it is running. -/
theorem not_told_late_start :
    (∃ w, (machine independent).Reachable w ∧ w.signalled = true ∧ w.isWaiting = true ∧ w.running_ = [true] ∧
      w.told true = false ∧ ¬ LifecycleHeld independent w) ∧
    (∃ w, (machine independent).Reachable w ∧ w.running_ = [false, false]) ∧
    ∃ w, (machine independent).Reachable w ∧ w.running_ = [] ∧ w.started false = 1 ∧
      w.isRunning false = true := by
  refine ⟨?_, ?_, ?_⟩
  · obtain ⟨w, hw, hp⟩ := Machine.exists_reachable_of_exec (perform independent) initial
      [.maybeRun false true, .start .running, .cease false, .sigTerm false true false, .maybeRun true true,
        .start .running]
      (fun w => w.signalled && w.isWaiting && w.running_ == [true] && !w.told true) (by decide)
    simp only [Bool.and_eq_true, beq_iff_eq, Bool.not_eq_true'] at hp
    refine ⟨w, hw, hp.1.1.1, hp.1.1.2, hp.1.2, hp.2, fun hheld => ?_⟩
    have htold := hheld.told hp.1.1.1 true (by simp [hp.1.2])
    simp [hp.2] at htold
  · obtain ⟨w, hw, hp⟩ := Machine.exists_reachable_of_exec (perform independent) initial
      [.maybeRun false true, .start .running, .cease false, .maybeRun false true, .start .running]
      (fun w => w.running_ == [false, false]) (by decide)
    exact ⟨w, hw, by simpa using hp⟩
  · obtain ⟨w, hw, hp⟩ := Machine.exists_reachable_of_exec (perform independent) initial
      [.maybeRun false true, .start .running, .cease false, .maybeRun false true, .start .running,
        .sigTerm false true false]
      (fun w => w.running_ == [] && w.started false == 1 && w.isRunning false) (by decide)
    simp only [Bool.and_eq_true, beq_iff_eq] at hp
    exact ⟨w, hw, hp.1.1, hp.1.2, hp.2⟩

end SubsystemRunner

end Lumiera.Common
