import Lumiera.Vault.Gear.ActivityLang
import Lumiera.Vault.Gear.Scheduler

/-! # Controlling the load (`vault/gear/load-controller.hpp`)

Whenever a worker asks for work, its distance to the head of the schedule is sampled into a moving
average, which is shared by all workers and replaced with compare-and-exchange. The new average is computed
with `double`, from the capacity which is fixed, the sample and the average seen; what comes out of this
computation is a parameter here. -/

namespace Lumiera.Vault.Gear

open Function

/-- Schedules beyond that horizon justify going idle. -/
def SLEEP_HORIZON : Int := 20000

/-- The sample taken by `markLagSample`: negative when there is free capacity. -/
def lagSample (head now : Int) : Int :=
  max (-SLEEP_HORIZON) (min (now - if isRegular head then head else now) WORK_HORIZON)

/-- **The sampled lag**, shared by all workers, together with a record of the samples taken and stored. -/
structure LagSampling (ThreadID : Type) where
  sampledLag_ : Int
  /-- What a worker within `markLagSample` holds: its sample, and the average it has seen. -/
  pending : ThreadID → Option (Int × Int)
  taken : ThreadID → List Int
  stored : List (ThreadID × Int)

/-- The atomic steps of `markLagSample`; the exchange may also fail spuriously. -/
inductive LagMove
  | load (head now : Int)
  | compareExchange (spurious : Bool)

namespace LagSampling

variable {ThreadID : Type} [DecidableEq ThreadID] {newAverage : Int → Int → Int}

/-- No sample was taken yet. -/
def initial : LagSampling ThreadID := ⟨0, fun _ => none, fun _ => [], []⟩

/-- A worker performs a step; `newAverage lag average` is the moving average with a further sample. -/
def step (newAverage : Int → Int → Int) (s : LagSampling ThreadID) (a : ThreadID × LagMove) :
    Option (LagSampling ThreadID) :=
  match a.2, s.pending a.1 with
  | .load head now, none => some { s with
      pending := update s.pending a.1 (some (lagSample head now, s.sampledLag_))
      taken := update s.taken a.1 (s.taken a.1 ++ [lagSample head now]) }
  | .compareExchange spurious, some (lag, average) =>
    if s.sampledLag_ = average ∧ spurious = false then some { s with
      sampledLag_ := newAverage lag average
      pending := update s.pending a.1 none
      stored := s.stored ++ [(a.1, lag)] }
    -- a failed exchange loads the present average, and is tried again
    else some { s with pending := update s.pending a.1 (some (lag, s.sampledLag_)) }
  | _, _ => none

/-- Any interleaving of the workers. -/
def machine (newAverage : Int → Int → Int) : Machine (LagSampling ThreadID) (ThreadID × LagMove) :=
  .ofFun initial (step newAverage)

/-- **No sample is lost**: the value is the average of the samples stored, and each worker's samples are
stored in sequence, but for the one it is about to store; all of them are within the horizon. -/
structure Accounted (newAverage : Int → Int → Int) (s : LagSampling ThreadID) : Prop where
  average : s.sampledLag_ = s.stored.foldl (fun average x => newAverage x.2 average) 0
  samples t : s.taken t =
    (s.stored.filter (·.1 = t)).map Prod.snd ++ (s.pending t).toList.map Prod.fst
  within t : ∀ lag ∈ s.taken t, -SLEEP_HORIZON ≤ lag ∧ lag ≤ WORK_HORIZON

variable {s s' : LagSampling ThreadID} {a : ThreadID × LagMove} {t : ThreadID}

/-- Peaks are clamped. -/
theorem lagSample_within (head now : Int) : -SLEEP_HORIZON ≤ lagSample head now ∧ lagSample head now ≤ WORK_HORIZON :=
  ⟨le_max_left _ _, max_le (by decide) (min_le_right _ _)⟩

theorem accounted_initial : (initial : LagSampling ThreadID).Accounted newAverage :=
  ⟨rfl, fun _ => rfl, fun _ _ h => absurd h List.not_mem_nil⟩

/-- Each step accounts for the samples. -/
theorem Accounted.step (h : s.Accounted newAverage) (hstep : LagSampling.step newAverage s a = some s') :
    s'.Accounted newAverage := by
  obtain ⟨worker, move⟩ := a
  simp only [LagSampling.step] at hstep
  split at hstep
  · -- a further sample is taken
    rename_i head now hnone
    cases hstep
    refine ⟨h.average, fun t => ?_, fun t lag hlag => ?_⟩
    · by_cases ht : t = worker
      · subst ht
        simp [h.samples t, hnone]
      · simp [ht, h.samples t]
    · by_cases ht : t = worker
      · subst ht
        simp only [update_self, List.mem_append, List.mem_singleton] at hlag
        rcases hlag with hlag | rfl
        · exact h.within t lag hlag
        · exact lagSample_within head now
      · exact h.within t lag (by simpa [ht] using hlag)
  · rename_i spurious lag average hsome
    split_ifs at hstep with hsame
    · -- nothing was stored since the average was loaded
      cases hstep
      refine ⟨?_, fun t => ?_, h.within⟩
      · simp [← hsame.1, h.average]
      · by_cases ht : t = worker
        · subst ht
          simp [h.samples t, hsome]
        · simp [ht, h.samples t, show worker ≠ t from fun heq => ht heq.symm]
    · -- the sample is still held by the worker
      cases hstep
      refine ⟨h.average, fun t => ?_, h.within⟩
      by_cases ht : t = worker
      · subst ht
        simp [h.samples t, hsome]
      · simp [ht, h.samples t]
  · cases hstep

/-- **The average lag** is the moving average of all samples in the order they were stored, none being
lost in any interleaving. -/
theorem lag_averaged (hs : (machine newAverage).Reachable s) : s.Accounted newAverage := by
  refine Machine.Invariant.reachable ⟨?_, fun s a t h hstep => h.step hstep⟩ hs
  rintro s rfl
  exact accounted_initial

/-- Two workers and a capacity of three, where both have seen the same average. -/
theorem lag_averaged_repeated : ∃ s : LagSampling Bool, s.stored = [(true, 5000), (false, -50)] ∧
    s.sampledLag_ = 1225 ∧ s.Accounted fun lag average => (lag + average) / 2 := by
  obtain ⟨s, hs, hstored⟩ := Machine.exists_reachable_of_exec
    (step fun lag average => (lag + average) / 2) (initial : LagSampling Bool)
    [(false, .load 150 100), (true, .load 0 7000), (true, .compareExchange false),
      (false, .compareExchange false), (false, .compareExchange false)]
    (fun s => s.stored = [(true, 5000), (false, -50)] ∧ s.sampledLag_ = 1225) (by decide +kernel)
  obtain ⟨hstored, haverage⟩ := of_decide_eq_true hstored
  exact ⟨s, hstored, haverage, lag_averaged hs⟩

end LagSampling

end Lumiera.Vault.Gear
