import Lumiera.Lib.Time.TimeValue

/-! # Control logic of the session thread loop (`steam/control/looper.hpp`)

The `Looper` combines a handful of flags into the predicates which control the session thread:
whether to process commands, to run the builder, or to wait. Several predicates read the clock
anew at each invocation; the reading `now` is thus an argument here. -/

namespace Lumiera.Steam.Control

open Lumiera.Lib

/-- Latency to trigger the builder after processing commands, in milliseconds. -/
def STEAM_DISPATCHER_BUILDER_DELAY_ms : Nat := 50

/-- Factor to slow down the latency when the command queue is not empty. -/
def STEAM_DISPATCHER_BUSY_SLOWDOWN_FACTOR : Nat := 15

/-- Working state of the control logic. -/
structure Looper where
  shutdown : Bool
  disabled : Bool
  inChange : Bool
  hasWork : Bool
  isDirty : Bool
  /-- When the dirty state was established. -/
  gotDirty : Int
  deriving DecidableEq, Repr

namespace Looper

/-- State after construction. -/
def initial : Looper := ⟨false, false, false, false, false, Time.NEVER⟩

/-! ## Working state logic -/

/-- Idle sleep period, in milliseconds. -/
def wakeTimeout_ms : Nat := STEAM_DISPATCHER_BUILDER_DELAY_ms

/-- Extension of the sleep period while working. -/
def slowdownFactor : Nat := STEAM_DISPATCHER_BUSY_SLOWDOWN_FACTOR

/-- Extended time period after which a builder run is enforced, in micro ticks. -/
def maxBuildTimeout : Int := 1000 * (wakeTimeout_ms * slowdownFactor)

/-- Termination was requested. -/
def isDying (l : Looper) : Bool := l.shutdown

/-- Neither commands nor the builder shall run. -/
def isDisabled (l : Looper) : Bool := l.disabled || l.isDying

/-- A builder run is due after the timeout. -/
def useTimeout (l : Looper) : Bool := l.isDirty && !l.isDisabled

/-- Commands shall be processed. -/
def isWorking (l : Looper) : Bool := l.hasWork && !l.isDisabled

/-- Enforce a builder run, once some extended time period has passed. -/
def forceBuild (l : Looper) (now : Int) : Bool :=
  l.isDirty && decide (maxBuildTimeout < Time.limitedDelta l.gotDirty now)

/-- The builder can run since there is no further work. -/
def idleBuild (l : Looper) : Bool := l.isDirty && !l.hasWork

/-- The builder shall run. -/
def runBuild (l : Looper) (now : Int) : Bool :=
  (l.idleBuild || l.forceBuild now) && !l.isDisabled

/-! ## Operation control -/

/-- Request termination. -/
def triggerShutdown (l : Looper) : Looper := { l with shutdown := true }

/-- Switch command processing and builder runs on or off. -/
def enableProcessing (l : Looper) (yes : Bool) : Looper := { l with disabled := !yes }

/-- Signals that all consequences of past state changes have been processed. -/
def markStateProcessed (l : Looper) (now : Int) : Looper :=
  let l := { l with inChange := false }
  -- assume the builder has been triggered in the loop body
  if l.runBuild now then { l with isDirty := false } else l

/-- State fusion to control the (timed) wait: the updated state, and whether to proceed. -/
def requireAction (l : Looper) (hasCommandsPending : Bool) (now : Int) : Looper × Bool :=
  let l := { l with hasWork := hasCommandsPending }
  let proceedImmediately := l.isWorking || l.forceBuild now || l.isDying
  let l := { l with inChange := proceedImmediately || l.useTimeout }
  -- schedule Builder run after timeout
  if l.isWorking && !l.isDirty then
    ({ l with gotDirty := now, isDirty := true }, proceedImmediately)
  else
    (l, proceedImmediately)

/-- State fusion to control looping. -/
def shallLoop (l : Looper) : Bool := !l.isDying

/-- How long to wait for a change, in milliseconds. -/
def getTimeout (l : Looper) : Nat :=
  if !l.useTimeout then 0
  else wakeTimeout_ms * (if l.isDirty && !l.isWorking then 1 else slowdownFactor)

/-! ## What the operations do to the dirty state -/

theorem isDirty_requireAction {l : Looper} (pending : Bool) (now : Int) (h : l.isDirty = true) :
    (l.requireAction pending now).1.isDirty = true := by
  unfold requireAction
  dsimp only
  split
  · rfl
  · exact h

/-- The evaluation marks the state dirty when there is work. -/
theorem isDirty_of_isWorking_requireAction {l : Looper} {pending : Bool} {now : Int}
    (h : (l.requireAction pending now).1.isWorking = true) : (l.requireAction pending now).1.isDirty = true := by
  unfold requireAction at h ⊢
  dsimp only at h ⊢
  split
  · rfl
  · next hnot =>
      rw [if_neg hnot] at h
      have hworking : ({ l with hasWork := pending } : Looper).isWorking = true := h
      by_contra hclean
      exact hnot (Bool.and_eq_true_iff.mpr ⟨hworking, Bool.not_eq_true' _ ▸ Bool.eq_false_iff.mpr hclean⟩)

theorem isDirty_markStateProcessed {l : Looper} {now : Int} (h : l.runBuild now = false) :
    (l.markStateProcessed now).isDirty = l.isDirty := by
  have hsame : ({ l with inChange := false } : Looper).runBuild now = l.runBuild now := rfl
  simp [markStateProcessed, hsame, h]

end Looper

end Lumiera.Steam.Control
