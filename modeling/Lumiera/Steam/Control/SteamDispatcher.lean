import Lumiera.Base.Machine
import Lumiera.Steam.Control.Looper

/-! # The session thread loop (`steam/control/steam-dispatcher.cpp`)

The session thread alternates between waiting for action, and a single activity: running the
builder or processing one command. Meanwhile other threads enqueue commands, and switch command
processing on and off. Every evaluation of a predicate is a step of its own, so that the clock may
advance, and other threads may act, between any two of them. -/

namespace Lumiera.Steam.Control

variable {Command : Type}

/-- Where the session thread is within `runSessionThread`. -/
inductive Pc
  /-- At the `while` condition. -/
  | loopHead
  /-- Entering `awaitAction`: about to determine the timeout. -/
  | enterWait
  /-- In `awaitAction`: about to evaluate the wait condition; the wait ends at `wakeAt`. -/
  | awaiting (wakeAt : Int)
  /-- In `awaitAction`: asleep until notified, or until the timeout. -/
  | asleep (wakeAt : Int)
  /-- In `awaitAction`: after the timeout, about to evaluate the wait condition a last time. -/
  | timedOut
  /-- About to check `isDying`. -/
  | awake
  /-- About to check `runBuild`. -/
  | decide
  /-- About to start the builder. -/
  | build
  /-- About to check `isWorking`. -/
  | checkWork
  /-- About to process a command. -/
  | process
  /-- In `updateState`, after an iteration which has started the builder or not. -/
  | update (built : Bool)
  /-- The loop was left. -/
  | terminated
  deriving DecidableEq, Repr

/-- State of the dispatcher, seen from the session thread. -/
structure DispatcherLoop (Command : Type) where
  queue : List Command
  looper : Looper
  /-- The real time clock. -/
  now : Int
  pc : Pc
  /-- History: the commands processed since the builder was last started. -/
  unbuilt : List Command
  deriving DecidableEq, Repr

/-- What can happen next. -/
inductive Action (Command : Type)
  /-- Another thread enqueues a command. -/
  | enqueue (cmd : Command)
  /-- Another thread discards the commands waiting. -/
  | clear
  /-- Another thread activates command processing. -/
  | activateCommandProcessing
  /-- Another thread deactivates command processing. -/
  | deactivateCommandProcessing
  /-- Another thread requests the loop to stop. -/
  | requestStop
  /-- Time passes. -/
  | elapse (ticks : Nat)
  /-- The sleeping session thread is notified, or wakes up spuriously. -/
  | wakeUp
  /-- The sleep of the session thread times out. -/
  | timeout
  /-- The session thread performs the next step of its loop. -/
  | proceed
  /-- The command being processed raises an exception. -/
  | raise
  deriving DecidableEq, Repr

namespace DispatcherLoop

/-- The session thread has been started, command processing is enabled by default. -/
def initial (now : Int) : DispatcherLoop Command := ⟨[], .initial, now, .loopHead, []⟩

/-- Evaluation of the wait condition; continue with `next` unless action is required. -/
def evalRequireAction (s : DispatcherLoop Command) (next : Pc) : DispatcherLoop Command :=
  let (looper, proceedImmediately) := s.looper.requireAction (!s.queue.isEmpty) s.now
  { s with looper := looper, pc := if proceedImmediately then .awake else next }

/-- `processCommands`: dispatch one command from the queue. -/
def processCommands (s : DispatcherLoop Command) (next : Pc) : DispatcherLoop Command :=
  match s.queue with
  | [] => { s with pc := next }
  | cmd :: queue => { s with queue := queue, unbuilt := cmd :: s.unbuilt, pc := next }

theorem looper_processCommands (s : DispatcherLoop Command) (next : Pc) :
    (s.processCommands next).looper = s.looper := by
  unfold processCommands
  split <;> rfl

/-- The next step of the session thread, in `runSessionThread`. -/
def proceed (s : DispatcherLoop Command) : Option (DispatcherLoop Command) :=
  match s.pc with
  | .loopHead => some { s with pc := if s.looper.shallLoop then .enterWait else .terminated }
  | .enterWait => some { s with pc := .awaiting (s.now + 1000 * s.looper.getTimeout) }
  | .awaiting wakeAt => some (s.evalRequireAction (.asleep wakeAt))
  | .asleep _ => none
  | .timedOut => some (s.evalRequireAction .awake)
  | .awake => some { s with pc := if s.looper.isDying then .terminated else .decide }
  | .decide => some { s with pc := if s.looper.runBuild s.now then .build else .checkWork }
  | .build => some { s with unbuilt := [], pc := .update true }
  | .checkWork => some { s with pc := if s.looper.isWorking then .process else .update false }
  | .process => some (s.processCommands (.update false))
  | .update _ => some { s with looper := s.looper.markStateProcessed s.now, pc := .loopHead }
  | .terminated => none

/-- Step function of the dispatcher. -/
def step (s : DispatcherLoop Command) : Action Command → Option (DispatcherLoop Command)
  | .enqueue cmd => some { s with queue := s.queue ++ [cmd] }
  | .clear => some { s with queue := [] }
  | .activateCommandProcessing => some { s with looper := s.looper.enableProcessing true }
  | .deactivateCommandProcessing => some { s with looper := s.looper.enableProcessing false }
  | .requestStop => some { s with looper := s.looper.triggerShutdown }
  | .elapse ticks => some { s with now := s.now + ticks }
  | .wakeUp =>
    match s.pc with
    | .asleep wakeAt => some { s with pc := .awaiting wakeAt }
    | _ => none
  | .timeout =>
    match s.pc with
    | .asleep wakeAt => if wakeAt ≤ s.now then some { s with pc := .timedOut } else none
    | _ => none
  | .proceed => s.proceed
  | .raise =>
    match s.pc, s.queue with
    | .process, _ :: _ => some (s.processCommands .terminated)
    | _, _ => none

/-- The runs of the dispatcher. -/
def machine (now : Int) : Machine (DispatcherLoop Command) (Action Command) :=
  .ofFun (initial now) step

/-! ## No lost build -/

/-- The wait condition was evaluated, and thereafter commands may be processed. -/
def Awaited : Pc → Prop
  | .awake | .decide | .checkWork => True
  | _ => False

/-- It was decided to do without a builder run in this iteration. -/
def Decided : Pc → Prop
  | .checkWork | .process | .update false => True
  | _ => False

instance : DecidablePred Awaited := fun pc => by cases pc <;> unfold Awaited <;> infer_instance

instance : DecidablePred Decided := fun pc => by
  cases pc with
  | update built => cases built <;> unfold Decided <;> infer_instance
  | _ => unfold Decided; infer_instance

/-- **Undisturbed steps.** Once it was decided to do without a builder run, the timeout does not pass, and
processing is not switched on again while a builder run is due; nor is it switched on after the wait
condition was evaluated, when there is work and the state is clean. -/
def Undisturbed (s : DispatcherLoop Command) : Action Command → Prop
  | .elapse ticks => Decided s.pc → s.looper.useTimeout = true →
      s.looper.forceBuild s.now = false → s.looper.forceBuild (s.now + ticks) = false
  | .activateCommandProcessing => s.looper.disabled = true →
      (Awaited s.pc → s.looper.hasWork = true → s.looper.isDirty = true) ∧
      (Decided s.pc → s.looper.isDirty = true →
        s.looper.hasWork = true ∧ s.looper.forceBuild s.now = false)
  | _ => True

instance [DecidableEq Command] (s : DispatcherLoop Command) (a : Action Command) :
    Decidable (Undisturbed s a) := by
  cases a <;> unfold Undisturbed <;> infer_instance

/-- **Invariant of undisturbed runs**: as long as a command processed was not picked up by the
builder, the state is dirty; and the decision to do without a builder run stands. -/
structure BuildPending (s : DispatcherLoop Command) : Prop where
  dirty : s.unbuilt ≠ [] → s.looper.isDirty = true
  dirty_of_process : s.pc = .process → s.looper.isDirty = true
  built : s.pc = .update true → s.unbuilt = []
  working : Awaited s.pc → s.looper.isWorking = true → s.looper.isDirty = true
  decided : Decided s.pc → s.looper.runBuild s.now = false

theorem buildPending_initial (now : Int) : BuildPending (initial now : DispatcherLoop Command) where
  dirty h := absurd rfl h
  dirty_of_process h := nomatch h
  built h := nomatch h
  working h := h.elim
  decided h := h.elim

variable {s t : DispatcherLoop Command}

section BuildPending

variable (h : BuildPending s)

include h

/-- Another thread acts, while the session thread remains where it is. -/
theorem BuildPending.of_eq
    (hdirty : t.looper.isDirty = s.looper.isDirty) (hunbuilt : t.unbuilt = s.unbuilt)
    (hpc : t.pc = s.pc) (hworking : Awaited s.pc → t.looper.isWorking = true → s.looper.isDirty = true)
    (hdecided : Decided s.pc → t.looper.runBuild t.now = false) : BuildPending t where
  dirty := by rw [hdirty, hunbuilt]; exact h.dirty
  dirty_of_process := by rw [hdirty, hpc]; exact h.dirty_of_process
  built := by rw [hpc, hunbuilt]; exact h.built
  working := by rw [hdirty, hpc]; exact hworking
  decided := by rw [hpc]; exact hdecided

/-- The session thread moves on, other than to process a command or after building. -/
theorem BuildPending.moveTo
    (hdirty : s.looper.isDirty = true → t.looper.isDirty = true) (hunbuilt : t.unbuilt = s.unbuilt)
    (hprocess : t.pc ≠ .process) (hbuilt : t.pc ≠ .update true)
    (hworking : Awaited t.pc → t.looper.isWorking = true → t.looper.isDirty = true)
    (hdecided : Decided t.pc → t.looper.runBuild t.now = false) : BuildPending t where
  dirty hne := hdirty (h.dirty (hunbuilt ▸ hne))
  dirty_of_process hpc := absurd hpc hprocess
  built hpc := absurd hpc hbuilt
  working := hworking
  decided := hdecided

/-- To a position where nothing was decided. -/
theorem BuildPending.moveAway
    (hdirty : s.looper.isDirty = true → t.looper.isDirty = true) (hunbuilt : t.unbuilt = s.unbuilt)
    (hawaited : ¬ Awaited t.pc) (hdecided : ¬ Decided t.pc) (hbuilt : t.pc ≠ .update true) : BuildPending t :=
  h.moveTo hdirty hunbuilt (fun hpc => hdecided (hpc ▸ trivial)) hbuilt (absurd · hawaited) (absurd · hdecided)

theorem BuildPending.evalRequireAction {next : Pc} (hnext : ¬ Decided next)
    (hbuilt : next ≠ .update true) : BuildPending (s.evalRequireAction next) := by
  have hpc : (s.evalRequireAction next).pc = .awake ∨ (s.evalRequireAction next).pc = next := by
    unfold DispatcherLoop.evalRequireAction
    dsimp only
    split
    · exact .inl rfl
    · exact .inr rfl
  refine h.moveTo (Looper.isDirty_requireAction _ _) rfl ?_ ?_
    (fun _ => Looper.isDirty_of_isWorking_requireAction) fun hdecided => ?_
  · rcases hpc with hpc | hpc <;> rw [hpc]
    · decide
    · exact fun heq => hnext (heq ▸ trivial)
  · rcases hpc with hpc | hpc <;> rw [hpc]
    · decide
    · exact hbuilt
  · rcases hpc with hpc | hpc <;> rw [hpc] at hdecided
    · exact hdecided.elim
    · exact absurd hdecided hnext

theorem BuildPending.processCommands (hpc : s.pc = .process) {next : Pc}
    (hprocess : next = .update false ∨ next = .terminated) : BuildPending (s.processCommands next) := by
  have hdirty : s.looper.isDirty = true := h.dirty_of_process hpc
  have hdecided : s.looper.runBuild s.now = false := h.decided (hpc ▸ trivial)
  unfold DispatcherLoop.processCommands
  split <;>
  · refine ⟨fun _ => hdirty, fun _ => hdirty, ?_, fun _ _ => hdirty, fun _ => hdecided⟩
    rcases hprocess with rfl | rfl <;> exact nofun

theorem BuildPending.markStateProcessed {built : Bool} (hpc : s.pc = .update built) :
    BuildPending { s with looper := s.looper.markStateProcessed s.now, pc := .loopHead } := by
  cases built with
  | true => exact ⟨fun hne => absurd (h.built hpc) hne, nofun, nofun, nofun, nofun⟩
  | false =>
    refine h.moveAway (fun hdirty => ?_) rfl id id nofun
    rw [Looper.isDirty_markStateProcessed (h.decided (hpc ▸ trivial))]
    exact hdirty

/-- Every step of the session thread keeps the invariant. -/
theorem BuildPending.proceed (hstep : s.proceed = some t) : BuildPending t := by
  unfold DispatcherLoop.proceed at hstep
  cases hpc : s.pc with
  | loopHead =>
    rw [hpc] at hstep
    cases hstep
    refine h.moveAway id rfl ?_ ?_ ?_ <;> dsimp only <;> split <;> decide
  | enterWait =>
    rw [hpc] at hstep
    cases hstep
    exact h.moveAway id rfl id id nofun
  | awaiting wakeAt =>
    rw [hpc] at hstep
    cases hstep
    exact h.evalRequireAction id nofun
  | asleep wakeAt =>
    rw [hpc] at hstep
    cases hstep
  | timedOut =>
    rw [hpc] at hstep
    cases hstep
    exact h.evalRequireAction id nofun
  | awake =>
    rw [hpc] at hstep
    cases hstep
    have hworking := h.working (hpc ▸ trivial)
    refine h.moveTo id rfl ?_ ?_ (fun _ => hworking) fun hdecided => ?_
    · dsimp only
      split <;> decide
    · dsimp only
      split <;> decide
    · split at hdecided <;> exact hdecided.elim
  | decide =>
    rw [hpc] at hstep
    cases hstep
    have hworking := h.working (hpc ▸ trivial)
    refine h.moveTo id rfl ?_ ?_ (fun _ => hworking) fun hdecided => ?_
    · dsimp only
      split <;> decide
    · dsimp only
      split <;> decide
    · split at hdecided
      · exact hdecided.elim
      · next hnot => exact Bool.eq_false_iff.mpr hnot
  | build =>
    rw [hpc] at hstep
    cases hstep
    exact ⟨fun hne => absurd rfl hne, nofun, fun _ => rfl, nofun, nofun⟩
  | checkWork =>
    rw [hpc] at hstep
    cases hstep
    have hdecided : s.looper.runBuild s.now = false := h.decided (hpc ▸ trivial)
    by_cases hwork : s.looper.isWorking = true
    · have hdirty := h.working (hpc ▸ trivial) hwork
      refine ⟨h.dirty, fun _ => hdirty, fun hbuilt => ?_, fun _ _ => hdirty, fun _ => hdecided⟩
      simp [hwork] at hbuilt
    · refine h.moveTo id rfl ?_ ?_ (fun _ hwork' => absurd hwork' hwork) fun _ => hdecided <;> simp [hwork]
  | process =>
    rw [hpc] at hstep
    cases hstep
    exact h.processCommands hpc (.inl rfl)
  | update built =>
    rw [hpc] at hstep
    cases hstep
    exact h.markStateProcessed hpc
  | terminated =>
    rw [hpc] at hstep
    cases hstep

/-- Time passes, and the decision stands. -/
theorem BuildPending.elapse {ticks : Nat} (hquiet : Undisturbed s (.elapse ticks)) :
    BuildPending { s with now := s.now + ticks } := by
  refine h.of_eq rfl rfl rfl h.working fun hdecided => ?_
  have hbefore := h.decided hdecided
  have htimeout := hquiet hdecided
  simp only [Looper.runBuild, Looper.idleBuild, Looper.useTimeout, Bool.and_eq_false_iff,
    Bool.or_eq_false_iff, Bool.and_eq_true, Bool.not_eq_true', Bool.not_eq_false'] at hbefore htimeout ⊢
  rcases hbefore with ⟨hidle, hforce⟩ | hdisabled
  · cases hoff : s.looper.isDisabled with
    | true => exact .inr rfl
    | false =>
      refine .inl ⟨hidle, ?_⟩
      cases hdirty : s.looper.isDirty with
      | true => exact htimeout ⟨hdirty, hoff⟩ hforce
      | false => rw [Looper.forceBuild, hdirty, Bool.false_and]
  · exact .inr hdisabled

/-- Processing is switched on while nothing depends on it. -/
theorem BuildPending.activate (hquiet : Undisturbed s .activateCommandProcessing) :
    BuildPending { s with looper := s.looper.enableProcessing true } := by
  cases hoff : s.looper.disabled with
  | false =>
    have hsame : s.looper.enableProcessing true = s.looper := by
      rw [Looper.enableProcessing, Bool.not_true, ← hoff]
    rw [hsame]
    exact h
  | true =>
    obtain ⟨hawaited, hdecided⟩ := hquiet hoff
    refine h.of_eq rfl rfl rfl (fun hpc hwork => ?_) fun hpc => ?_
    · simp only [Looper.isWorking, Bool.and_eq_true] at hwork
      exact hawaited hpc hwork.1
    · show (((s.looper.isDirty && !s.looper.hasWork) || s.looper.forceBuild s.now) && _) = false
      cases hdirty : s.looper.isDirty with
      | true =>
        obtain ⟨hwork, hquiet⟩ := hdecided hpc hdirty
        rw [hwork, hquiet]
        rfl
      | false =>
        rw [Looper.forceBuild, hdirty]
        rfl

/-- Processing is not possible any more, so neither is a builder run. -/
theorem BuildPending.disable {looper : Looper} (hdirty : looper.isDirty = s.looper.isDirty)
    (hdisabled : looper.isDisabled = true) : BuildPending { s with looper := looper } := by
  refine h.of_eq hdirty rfl rfl (fun _ hwork => ?_) fun _ => ?_
  · simp [Looper.isWorking, hdisabled] at hwork
  · simp [Looper.runBuild, hdisabled]

/-- Step lemma: every undisturbed step keeps the invariant. -/
theorem BuildPending.step {a : Action Command} (hquiet : Undisturbed s a)
    (hstep : s.step a = some t) : BuildPending t := by
  cases a with
  | enqueue cmd => cases hstep; exact h.of_eq rfl rfl rfl h.working h.decided
  | clear => cases hstep; exact h.of_eq rfl rfl rfl h.working h.decided
  | activateCommandProcessing => cases hstep; exact h.activate hquiet
  | deactivateCommandProcessing => cases hstep; exact h.disable rfl rfl
  | requestStop => cases hstep; exact h.disable rfl (Bool.or_true _)
  | elapse ticks => cases hstep; exact h.elapse hquiet
  | wakeUp =>
    unfold DispatcherLoop.step at hstep
    dsimp only at hstep
    split at hstep <;> cases hstep
    exact h.moveAway id rfl id id nofun
  | timeout =>
    unfold DispatcherLoop.step at hstep
    dsimp only at hstep
    split at hstep
    · split at hstep <;> cases hstep
      exact h.moveAway id rfl id id nofun
    · cases hstep
  | proceed => exact h.proceed hstep
  | raise =>
    unfold DispatcherLoop.step at hstep
    dsimp only at hstep
    split at hstep
    · next hpc _ =>
        cases hstep
        exact h.processCommands hpc (.inr rfl)
    · cases hstep

end BuildPending

theorem buildPending_invariant (now : Int) :
    Machine.Invariant ((machine now).restrict Undisturbed)
      (BuildPending : DispatcherLoop Command → Prop) where
  init s hs := by
    obtain rfl : s = initial now := hs
    exact buildPending_initial now
  step _ _ _ h hstep := h.step hstep.1 hstep.2

/-- The dirty state is cleared by the bookkeeping at the end of an iteration only, and there only
when the builder is to be run. -/
theorem update_of_cleared {a : Action Command} (hstep : s.step a = some t) (hdirty : s.looper.isDirty = true)
    (hclean : t.looper.isDirty = false) :
    a = .proceed ∧ ∃ built, s.pc = .update built ∧ s.looper.runBuild s.now = true := by
  have hkept : t.looper.isDirty ≠ true := by simp [hclean]
  cases a with
  | enqueue cmd => cases hstep; exact absurd hdirty hkept
  | clear => cases hstep; exact absurd hdirty hkept
  | activateCommandProcessing => cases hstep; exact absurd hdirty hkept
  | deactivateCommandProcessing => cases hstep; exact absurd hdirty hkept
  | requestStop => cases hstep; exact absurd hdirty hkept
  | elapse ticks => cases hstep; exact absurd hdirty hkept
  | wakeUp =>
    unfold DispatcherLoop.step at hstep
    dsimp only at hstep
    split at hstep <;> cases hstep
    exact absurd hdirty hkept
  | timeout =>
    unfold DispatcherLoop.step at hstep
    dsimp only at hstep
    split at hstep
    · split at hstep <;> cases hstep
      exact absurd hdirty hkept
    · cases hstep
  | raise =>
    unfold DispatcherLoop.step at hstep
    dsimp only at hstep
    split at hstep
    · cases hstep
      exact absurd (s.looper_processCommands _ ▸ hdirty) hkept
    · cases hstep
  | proceed =>
    refine ⟨rfl, ?_⟩
    change s.proceed = some t at hstep
    unfold DispatcherLoop.proceed at hstep
    cases hpc : s.pc with
    | update built =>
      rw [hpc] at hstep
      cases hstep
      refine ⟨built, rfl, ?_⟩
      by_contra hnot
      refine hkept ?_
      rw [Looper.isDirty_markStateProcessed (Bool.eq_false_iff.mpr hnot)]
      exact hdirty
    | awaiting wakeAt =>
      rw [hpc] at hstep
      cases hstep
      exact absurd (Looper.isDirty_requireAction _ _ hdirty) hkept
    | timedOut =>
      rw [hpc] at hstep
      cases hstep
      exact absurd (Looper.isDirty_requireAction _ _ hdirty) hkept
    | process =>
      rw [hpc] at hstep
      cases hstep
      exact absurd (s.looper_processCommands _ ▸ hdirty) hkept
    | loopHead | enterWait | asleep | awake | decide | build | checkWork | terminated =>
      rw [hpc] at hstep
      cases hstep
      all_goals exact absurd hdirty hkept

/-- **No lost build**, in every undisturbed run: as long as a command processed was not picked up
by a builder run, the state is dirty; and the dirty state is cleared only at the end of an
iteration in which the builder was started, after every command processed so far. -/
theorem no_lost_build (now : Int) {s : DispatcherLoop Command}
    (hs : ((machine now).restrict Undisturbed).Reachable s) :
    (s.unbuilt ≠ [] → s.looper.isDirty = true) ∧
    ∀ a t, s.step a = some t → s.looper.isDirty = true → t.looper.isDirty = false →
      s.pc = .update true ∧ s.unbuilt = [] := by
  have hinv := (buildPending_invariant now).reachable hs
  refine ⟨hinv.dirty, fun a t hstep hdirty hclean => ?_⟩
  obtain ⟨rfl, built, hpc, hrun⟩ := update_of_cleared hstep hdirty hclean
  cases built with
  | true => exact ⟨hpc, hinv.built hpc⟩
  | false =>
    -- the decision to do without a builder run stands until the bookkeeping
    have hdecided := hinv.decided (hpc ▸ trivial)
    rw [hrun] at hdecided
    cases hdecided

/-- One command, followed by a builder run after the timeout, which clears the dirty state. Meanwhile
processing is switched off and on. -/
theorem no_lost_build_single : ∃ s t : DispatcherLoop Nat, s.step .proceed = some t ∧
    s.looper.isDirty = true ∧ t.looper.isDirty = false ∧ s.pc = .update true ∧ s.unbuilt = [] := by
  let s : DispatcherLoop Nat := ⟨[], ⟨false, false, true, false, true, 0⟩, 790000, .update true, []⟩
  let t : DispatcherLoop Nat := ⟨[], ⟨false, false, false, false, false, 0⟩, 790000, .loopHead, []⟩
  have hreach : ((machine 0).restrict Undisturbed).Reachable s :=
    Machine.restrict_reachable_of_exec
      (.enqueue 7 :: List.replicate 7 .proceed ++ [.deactivateCommandProcessing, .elapse 40000] ++
        List.replicate 2 .proceed ++ [.activateCommandProcessing, .proceed, .proceed, .elapse 750000, .timeout] ++
        List.replicate 4 .proceed) (by decide)
  have hstep : s.step .proceed = some t := by decide
  exact ⟨s, t, hstep, rfl, rfl, (no_lost_build 0 hreach).2 .proceed t hstep rfl rfl⟩

/-- A command which takes longer than the extended latency is never followed by a builder run: the
loop goes to sleep in clean state, with no further work. -/
theorem build_lost_after_slow_command : ¬ ∀ s : DispatcherLoop Nat, (machine 0).Reachable s →
    (s.unbuilt ≠ [] → s.looper.isDirty = true) := by
  intro hclaim
  have hreach : (machine 0).Reachable
      (⟨[], ⟨false, false, false, false, false, 0⟩, 750001, .asleep 750001, [7]⟩ :
        DispatcherLoop Nat) :=
    Machine.reachable_of_exec
      (.enqueue 7 :: List.replicate 7 .proceed ++ .elapse 750001 :: List.replicate 4 .proceed)
      (by decide)
  exact absurd (hclaim _ hreach (by decide)) (by decide)

end DispatcherLoop

end Lumiera.Steam.Control
