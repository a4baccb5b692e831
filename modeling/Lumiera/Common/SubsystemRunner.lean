import Lumiera.Base.Machine
import Mathlib.Data.List.Basic

/-! # Running subsystems (`common/subsystem-runner.hpp`)

The runner brings up subsystems, each one after its prerequisites, and keeps a list of those which
are running. A subsystem runs on its own; when it ends it resets its running state and then signals
termination, which takes it off the list and tells all the others to shut down. Starting is done
under a lock: a signal from elsewhere has to wait until the start is done, while the running state
of subsystems may change meanwhile. The recursion of `triggerStartup` is represented by the stack of
its activations, so that each start call is a step of its own. -/

namespace Lumiera.Common

open Function Relation

universe u

/-- The subsystems and their prerequisites (`Subsys::getPrerequisites`), which form no cycle. -/
structure SubsysGraph (ι : Type u) where
  getPrerequisites : ι → List ι
  acyclic : ∀ susy, ¬ TransGen (fun prereq susy => prereq ∈ getPrerequisites susy) susy susy

/-- Whether a subsystem which was not brought up signals termination nonetheless. -/
inductive TermSignal
  | none
  /-- From within the start call, and whether it reports a problem. -/
  | within (problem : Bool)
  /-- Some time after the start call. -/
  | later
  deriving DecidableEq, Repr

/-- The outcome of a start call (`Subsys::start`). -/
inductive StartOutcome
  /-- Reported to be started, and it is running. -/
  | running
  /-- Not running after the call, whatever the result is: reported to be started, reported not to be
  started, or an exception (no result). -/
  | failed (result : Option Bool) (signal : TermSignal)
  deriving DecidableEq, Repr

/-- What happened in the course of starting. -/
inductive Event (ι : Type u)
  /-- `triggerStartup` found the subsystem running. -/
  | foundRunning (susy : ι)
  /-- `start` was called. -/
  | start (susy : ι)
  deriving DecidableEq, Repr

/-- An activation of `triggerStartup`. -/
structure Activation (ι : Type u) where
  /-- The subsystem to be started. -/
  susy : ι
  /-- The prerequisites yet to be triggered. -/
  todo : List ι
  /-- The number of events at the begin of the activation. -/
  since : ℕ
  deriving DecidableEq, Repr

/-- The runner and the subsystems. -/
structure SubsystemRunner (ι : Type u) where
  emergency_ : Bool
  /-- The subsystems known to be running. -/
  running_ : List ι
  /-- The activations of `triggerStartup`, innermost first; while there are any, the lock is held. -/
  stack : List (Activation ι)
  /-- The running state of each subsystem (`isRunning`). -/
  isRunning : ι → Bool
  /-- Whether a subsystem has been told to shut down since its last successful start. -/
  told : ι → Bool
  /-- The number of successful starts of a subsystem for which it has not yet signalled termination. -/
  started : ι → ℕ
  /-- The number of those for which it has reset its running state already. -/
  ceased : ι → ℕ
  /-- The number of starts without success for which it will signal termination nonetheless. -/
  astray : ι → ℕ
  /-- Whether any subsystem has signalled termination. -/
  signalled : Bool
  events : List (Event ι)

namespace SubsystemRunner

variable {ι : Type u} [DecidableEq ι] (G : SubsysGraph ι)

/-- A new runner; no subsystem is running. -/
def initial : SubsystemRunner ι where
  emergency_ := false
  running_ := []
  stack := []
  isRunning _ := false
  told _ := false
  started _ := 0
  ceased _ := 0
  astray _ := 0
  signalled := false
  events := []

/-- `Subsys::triggerShutdown`. -/
def triggerShutdown (w : SubsystemRunner ι) (susy : ι) : SubsystemRunner ι :=
  { w with told := update w.told susy true }

/-- `shutdownAll`. -/
def shutdownAll (w : SubsystemRunner ι) : SubsystemRunner ι := w.running_.foldl triggerShutdown w

/-- `triggerEmergency`. -/
def triggerEmergency (w : SubsystemRunner ι) (cond : Bool) : SubsystemRunner ι :=
  if cond then { w with emergency_ := true } else w

/-- `sigTerm`: all occurrences of the subsystem are taken off the list. -/
def sigTerm (w : SubsystemRunner ι) (susy : ι) (problem : Bool) : SubsystemRunner ι :=
  let w := w.triggerEmergency problem
  shutdownAll { w with running_ := w.running_.filter (· ≠ susy), signalled := true }

/-- What a start call does to the subsystem, depending on the outcome. -/
def callStart (w : SubsystemRunner ι) (susy : ι) : StartOutcome → SubsystemRunner ι
  | .running =>
    { w with
      isRunning := update w.isRunning susy true
      told := update w.told susy false
      started := update w.started susy (w.started susy + 1) }
  | .failed _ .none => w
  | .failed _ (.within problem) => w.sigTerm susy problem
  | .failed _ .later => { w with astray := update w.astray susy (w.astray susy + 1) }

/-- An exception is raised: all activations are left, and the lock is released. -/
def unwind (w : SubsystemRunner ι) : SubsystemRunner ι := { w with stack := [] }

/-- The check at the end of `triggerStartup`: when a prerequisite is not running, the subsystem is
told to shut down and an exception is raised. -/
def checkPrerequisites (w : SubsystemRunner ι) (susy : ι) : SubsystemRunner ι :=
  if (G.getPrerequisites susy).all w.isRunning then w else (w.triggerShutdown susy).unwind

/-- The begin of `triggerStartup`: nothing is done for a subsystem which is running. -/
def triggerStartup (w : SubsystemRunner ι) (susy : ι) : SubsystemRunner ι :=
  if w.isRunning susy then { w with events := w.events ++ [.foundRunning susy] }
  else { w with stack := ⟨susy, G.getPrerequisites susy, w.events.length⟩ :: w.stack }

/-- The next prerequisite is triggered (`for_each (susy->getPrerequisites(), triggerStart)`). -/
def triggerNext (w : SubsystemRunner ι) : Option (SubsystemRunner ι) :=
  match w.stack with
  | ⟨susy, prereq :: todo, since⟩ :: outer =>
    some (triggerStartup G { w with stack := ⟨susy, todo, since⟩ :: outer } prereq)
  | _ => none

/-- The rest of `triggerStartup`, when all prerequisites have been triggered. -/
def start (w : SubsystemRunner ι) (outcome : StartOutcome) : Option (SubsystemRunner ι) :=
  match w.stack with
  | ⟨susy, [], _⟩ :: outer =>
    let w := callStart { w with stack := outer, events := w.events ++ [.start susy] } susy outcome
    match outcome with
    | .running => some (checkPrerequisites G { w with running_ := w.running_ ++ [susy] } susy)
    -- reported as started but not running: `error::Logic`
    | .failed (some true) _ => some w.unwind
    | .failed (some false) _ => some (checkPrerequisites G w susy)
    | .failed none _ => some w.unwind
  | _ => none

/-- What may happen. -/
inductive Action (ι : Type u)
  /-- `maybeRun`, with what `shouldStart` says. -/
  | maybeRun (susy : ι) (shouldStart : Bool)
  | triggerNext
  | start (outcome : StartOutcome)
  /-- A subsystem resets its running state. -/
  | cease (susy : ι)
  /-- A subsystem signals termination for a successful start of it, or for one without success. -/
  | sigTerm (susy : ι) (success problem : Bool)
  | shutdownAll
  deriving Repr

/-- Performs an action; without result when it can not take place now. -/
def perform (w : SubsystemRunner ι) : Action ι → Option (SubsystemRunner ι)
  | .maybeRun susy shouldStart =>
    if w.stack ≠ [] then none
    else if !w.isRunning susy && shouldStart then some (triggerStartup G w susy)
    else some w
  | .triggerNext => triggerNext G w
  | .start outcome => start G w outcome
  | .cease susy =>
    if w.isRunning susy then
      some { w with
        isRunning := update w.isRunning susy false
        ceased := update w.ceased susy (w.ceased susy + 1) }
    else none
  | .sigTerm susy true problem =>
    if w.stack = [] ∧ w.ceased susy ≠ 0 then
      some (sigTerm { w with
        started := update w.started susy (w.started susy - 1)
        ceased := update w.ceased susy (w.ceased susy - 1) } susy problem)
    else none
  | .sigTerm susy false problem =>
    if w.stack = [] ∧ w.astray susy ≠ 0 then
      some (sigTerm { w with astray := update w.astray susy (w.astray susy - 1) } susy problem)
    else none
  | .shutdownAll => if w.stack = [] then some w.shutdownAll else none

/-- Whether `wait` keeps waiting: for the subsystems in the list, unless there is an emergency. -/
def isWaiting (w : SubsystemRunner ι) : Bool := !(w.running_.isEmpty || w.emergency_)

/-- The runner with its subsystems, and any actions performed. -/
def machine : Machine (SubsystemRunner ι) (Action ι) := Machine.ofFun initial (perform G)

end SubsystemRunner

/-! ## The order in which subsystems are started

The activations of `triggerStartup` are **sound** in every run: the prerequisites of what is about
to be started have been dealt with. What waits below an activation depends on its subsystem; as
prerequisites form no cycle, nothing is started which is running already. -/

open List Relation

variable {ι : Type u} {G : SubsysGraph ι}

namespace SubsystemRunner

variable {susy : ι}

/-! ## Prerequisites come first -/

/-- The subsystem was found running, or its start was attempted. -/
def Handled (events : List (Event ι)) (susy : ι) : Prop := .foundRunning susy ∈ events ∨ .start susy ∈ events

/-- **The activations are sound**: each prerequisite is yet to be triggered, or has been handled
since the begin of the activation, or is what the activation above is about; and no subsystem about
to be started is running. -/
def StackSound (G : SubsysGraph ι) (isRunning : ι → Bool) (events : List (Event ι)) :
    Option ι → List (Activation ι) → Prop
  | _, [] => True
  | above, act :: outer =>
    (∀ prereq ∈ G.getPrerequisites act.susy,
      prereq ∈ act.todo ∨ Handled (events.drop act.since) prereq ∨ above = some prereq) ∧
    (∀ susy, susy ∈ act.todo ∨ above = some susy → susy ∈ G.getPrerequisites act.susy) ∧
    act.since ≤ events.length ∧ isRunning act.susy = false ∧
    StackSound G isRunning events (some act.susy) outer

variable {since : ℕ}

theorem Handled.append {events : List (Event ι)} (hsince : since ≤ events.length)
    (h : Handled (events.drop since) susy) (more : List (Event ι)) : Handled ((events ++ more).drop since) susy := by
  rw [drop_append_of_le_length hsince]
  exact h.imp (mem_append_left more) (mem_append_left more)

theorem handled_last {events : List (Event ι)} {event : Event ι} (hsince : since ≤ events.length)
    (hevent : event = .foundRunning susy ∨ event = .start susy) : Handled ((events ++ [event]).drop since) susy := by
  have hmem : event ∈ (events ++ [event]).drop since := by
    rw [drop_append_of_le_length hsince]
    exact mem_append_right _ (mem_singleton_self event)
  rcases hevent with rfl | rfl
  · exact .inl hmem
  · exact .inr hmem

variable {isRunning isRunning' : ι → Bool} {events : List (Event ι)} {above : Option ι}
  {stack : List (Activation ι)}

theorem StackSound.mono (h : StackSound G isRunning events above stack)
    (hrunning : ∀ act ∈ stack, isRunning act.susy = false → isRunning' act.susy = false)
    (more : List (Event ι)) :
    StackSound G isRunning' (events ++ more) above stack := by
  induction stack generalizing above with
  | nil => trivial
  | cons act outer ih =>
    obtain ⟨hprereqs, habove, hsince, hstopped, houter⟩ := h
    refine ⟨fun prereq hprereq => ?_, habove, ?_, hrunning act mem_cons_self hstopped,
      ih houter fun a ha => hrunning a (mem_cons_of_mem act ha)⟩
    · exact (hprereqs prereq hprereq).imp_right (.imp_left fun hhandled => hhandled.append hsince more)
    · rw [length_append]
      omega

theorem StackSound.depends (h : StackSound G isRunning events (some susy) stack) {act : Activation ι}
    (hact : act ∈ stack) : TransGen (fun prereq susy => prereq ∈ G.getPrerequisites susy) susy act.susy := by
  induction stack generalizing susy with
  | nil => cases hact
  | cons first outer ih =>
    obtain ⟨-, habove, -, -, houter⟩ := h
    have hfirst := habove susy (.inr rfl)
    rcases mem_cons.mp hact with rfl | hact
    · exact .single hfirst
    · exact .head hfirst (ih houter hact)

theorem StackSound.handled (h : StackSound G isRunning events (some susy) stack) {event : Event ι}
    (hevent : event = .foundRunning susy ∨ event = .start susy) :
    StackSound G isRunning (events ++ [event]) none stack := by
  cases stack with
  | nil => trivial
  | cons act outer =>
    obtain ⟨hprereqs, htodo, hsince, hstopped, houter⟩ := h
    refine ⟨fun prereq hprereq => ?_, fun x hx => htodo x (.inl (by simpa using hx)), ?_, hstopped,
      houter.mono (fun _ _ h => h) _⟩
    · rcases hprereqs prereq hprereq with htodo | hhandled | habove
      · exact .inl htodo
      · exact .inr (.inl (hhandled.append hsince _))
      · cases habove
        exact .inr (.inl (handled_last hsince hevent))
    · rw [length_append]
      omega

theorem StackSound.push (h : StackSound G isRunning events (some susy) stack) (hstopped : isRunning susy = false) :
    StackSound G isRunning events none (⟨susy, G.getPrerequisites susy, events.length⟩ :: stack) :=
  ⟨fun _ hprereq => .inl hprereq, fun _ hx => (by simpa using hx), Nat.le_refl _, hstopped, h⟩

theorem StackSound.next {prereq : ι} {todo : List ι}
    (h : StackSound G isRunning events none (⟨susy, prereq :: todo, since⟩ :: stack)) :
    StackSound G isRunning events (some prereq) (⟨susy, todo, since⟩ :: stack) := by
  obtain ⟨hprereqs, habove, hsince, hstopped, houter⟩ := h
  refine ⟨fun x hx => ?_, fun x hx => habove x (.inl ?_), hsince, hstopped, houter⟩
  swap
  · rcases hx with hx | hx
    · exact mem_cons_of_mem prereq hx
    · cases hx
      exact mem_cons_self
  rcases hprereqs x hx with htodo | hhandled | hnone
  · rcases mem_cons.mp htodo with rfl | htodo
    · exact .inr (.inr rfl)
    · exact .inl htodo
  · exact .inr (.inl hhandled)
  · cases hnone

variable {w w' : SubsystemRunner ι}

theorem sound_triggerStartup (h : StackSound G w.isRunning w.events (some susy) w.stack) :
    StackSound G (triggerStartup G w susy).isRunning (triggerStartup G w susy).events none
      (triggerStartup G w susy).stack := by
  rw [triggerStartup]
  split
  · exact h.handled (.inl rfl)
  · rename_i hstopped
    exact h.push (by simpa using hstopped)

/-- The runner's activations are sound. -/
def Sound (G : SubsysGraph ι) (w : SubsystemRunner ι) : Prop := StackSound G w.isRunning w.events none w.stack

theorem sound_of_stack_nil (h : w.stack = []) : Sound G w := by
  rw [Sound, h]
  trivial

theorem sound_triggerNext (hsound : Sound G w) (h : triggerNext G w = some w') : Sound G w' := by
  unfold triggerNext at h
  split at h
  · rename_i susy prereq todo since outer hstack
    cases h
    rw [Sound, hstack] at hsound
    exact sound_triggerStartup hsound.next
  · cases h

/-- **The start of a subsystem comes after its prerequisites**: since the startup of a subsystem was
triggered, each of its prerequisites was found running or its start was attempted. -/
theorem Sound.handled {outer : List (Activation ι)} (hsound : Sound G w)
    (hstack : w.stack = ⟨susy, [], since⟩ :: outer) {prereq : ι} (hprereq : prereq ∈ G.getPrerequisites susy) :
    Handled (w.events.drop since) prereq := by
  rw [Sound, hstack] at hsound
  rcases hsound.1 prereq hprereq with hnil | hhandled | hnone
  · cases hnil
  · exact hhandled
  · cases hnone

variable [DecidableEq ι]

/-! ## Telling subsystems to shut down -/

theorem foldl_triggerShutdown (list : List ι) (w : SubsystemRunner ι) :
    list.foldl triggerShutdown w = { w with told := fun x => decide (x ∈ list) || w.told x } := by
  induction list generalizing w with
  | nil => simp
  | cons y list ih =>
    rw [foldl_cons, ih, triggerShutdown]
    congr 1
    funext x
    by_cases hx : x = y
    · subst hx; simp
    · simp [hx]

theorem shutdownAll_eq (w : SubsystemRunner ι) :
    w.shutdownAll = { w with told := fun x => decide (x ∈ w.running_) || w.told x } :=
  foldl_triggerShutdown w.running_ w

theorem sigTerm_eq (w : SubsystemRunner ι) (susy : ι) (problem : Bool) :
    w.sigTerm susy problem =
      { w with
        emergency_ := w.emergency_ || problem
        running_ := w.running_.filter (· ≠ susy)
        signalled := true
        told := fun x => decide (x ∈ w.running_.filter (· ≠ susy)) || w.told x } := by
  rw [sigTerm, shutdownAll_eq, triggerEmergency]
  cases problem <;> simp

/-! ## What each operation does to the activations -/

@[simp] theorem callStart_stack (w : SubsystemRunner ι) (susy : ι) (outcome : StartOutcome) :
    (w.callStart susy outcome).stack = w.stack := by
  rcases outcome with _ | ⟨_, _ | _ | _⟩ <;> simp [callStart, sigTerm_eq]

@[simp] theorem callStart_events (w : SubsystemRunner ι) (susy : ι) (outcome : StartOutcome) :
    (w.callStart susy outcome).events = w.events := by
  rcases outcome with _ | ⟨_, _ | _ | _⟩ <;> simp [callStart, sigTerm_eq]

theorem callStart_isRunning_of_ne {x : ι} (w : SubsystemRunner ι) (outcome : StartOutcome) (hx : x ≠ susy) :
    (w.callStart susy outcome).isRunning x = w.isRunning x := by
  rcases outcome with _ | ⟨_, _ | _ | _⟩ <;> simp [callStart, sigTerm_eq, hx]

theorem checkPrerequisites_eq (w : SubsystemRunner ι) (susy : ι) :
    checkPrerequisites G w susy =
      if (G.getPrerequisites susy).all w.isRunning then w
      else { w with stack := [], told := Function.update w.told susy true } := rfl

theorem start_cases {outcome : StartOutcome} (h : start G w outcome = some w') :
    ∃ susy since outer, w.stack = ⟨susy, [], since⟩ :: outer ∧ (w'.stack = outer ∨ w'.stack = []) ∧
      w'.events = w.events ++ [.start susy] ∧ ∀ x ≠ susy, w'.isRunning x = w.isRunning x := by
  unfold start at h
  split at h
  · rename_i susy since outer hstack
    refine ⟨susy, since, outer, hstack, ?_⟩
    have hisRunning := fun x (hx : x ≠ susy) => callStart_isRunning_of_ne
      { w with stack := outer, events := w.events ++ [.start susy] } outcome hx
    rcases outcome with _ | ⟨_ | _ | _, signal⟩ <;> cases h
    · rw [checkPrerequisites_eq]
      split <;> exact ⟨by simp, by simp, hisRunning⟩
    · exact ⟨by simp [unwind], by simp [unwind], hisRunning⟩
    · rw [checkPrerequisites_eq]
      split <;> exact ⟨by simp, by simp, hisRunning⟩
    · exact ⟨by simp [unwind], by simp [unwind], hisRunning⟩
  · cases h

/-! ## The activations are sound in every run -/

theorem sound_start {outcome : StartOutcome} (hsound : Sound G w) (h : start G w outcome = some w') : Sound G w' := by
  obtain ⟨susy, since, outer, hstack, hleft, hevents, hisRunning⟩ := start_cases h
  rw [Sound, hstack] at hsound
  obtain ⟨-, -, -, -, houter⟩ := hsound
  rcases hleft with hleft | hleft
  · rw [Sound, hleft, hevents]
    have hhandled : StackSound G w.isRunning (w.events ++ [.start susy]) none outer :=
        houter.handled (.inr rfl)
    -- what waits below depends on what was started, and thus is something else
    have hstopped : ∀ act ∈ outer, w.isRunning act.susy = false → w'.isRunning act.susy = false := by
      intro act hact hstopped
      have hne : act.susy ≠ susy := fun heq => G.acyclic susy (by simpa [heq] using houter.depends hact)
      rw [hisRunning act.susy hne]
      exact hstopped
    simpa using hhandled.mono hstopped []
  · exact sound_of_stack_nil hleft

theorem sound_cease (hsound : Sound G w) (susy : ι) :
    StackSound G (Function.update w.isRunning susy false) w.events none w.stack := by
  have hmono : ∀ act ∈ w.stack, w.isRunning act.susy = false →
      Function.update w.isRunning susy false act.susy = false := by
    intro act _ hstopped
    by_cases heq : act.susy = susy
    · simp [heq]
    · rw [Function.update_of_ne heq]
      exact hstopped
  simpa using hsound.mono hmono []

theorem sigTerm_stack (w : SubsystemRunner ι) (susy : ι) (problem : Bool) :
    (w.sigTerm susy problem).stack = w.stack := by
  rw [sigTerm_eq]

theorem shutdownAll_stack (w : SubsystemRunner ι) : w.shutdownAll.stack = w.stack := by
  rw [shutdownAll_eq]

/-- Every action keeps the activations sound. -/
theorem sound_perform {a : Action ι} (hsound : Sound G w) (h : perform G w a = some w') : Sound G w' := by
  cases a with
  | maybeRun susy shouldStart =>
    simp only [perform] at h
    split at h
    · cases h
    · rename_i hstack
      split at h <;> cases h
      · exact sound_triggerStartup (by simp only [not_not] at hstack; rw [hstack]; trivial)
      · exact hsound
  | triggerNext => exact sound_triggerNext hsound h
  | start outcome => exact sound_start hsound h
  | cease susy =>
    simp only [perform] at h
    split at h <;> cases h
    exact sound_cease hsound susy
  | sigTerm susy success problem =>
    cases success <;> simp only [perform] at h <;> split at h <;> cases h <;> rename_i hcond <;>
      exact sound_of_stack_nil ((sigTerm_stack _ _ _).trans hcond.1)
  | shutdownAll =>
    simp only [perform] at h
    split at h <;> cases h
    rename_i hstack
    exact sound_of_stack_nil ((shutdownAll_stack w).trans hstack)

theorem sound_invariant (G : SubsysGraph ι) : (machine G).Invariant (Sound G) where
  init := by
    rintro w rfl
    trivial
  step _ _ _ hsound h := sound_perform hsound h

end SubsystemRunner

end Lumiera.Common
