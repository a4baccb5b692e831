import Lumiera.Vault.Gear.BlockFlowOrder

/-! # Self-regulation of the epoch step

The epoch step is decreased when Epochs overflow, set for additional calculation flow, and damped
towards the ideal spacing when past Epochs are discarded. The first two are limited by a cut-off, while
the damping is not: the step remains positive only as long as each discarded Epoch was long enough,
relative to its fill (`Damped`). This is violated by Epochs created after the pool was emptied, when
their deadline is earlier than the last one discarded.

With a positive step, `until` is always defined, and each new Epoch is set up with a deadline after
its predecessor. -/

namespace Lumiera.Vault.Gear.Extents

open List

open Lumiera.Vault.Mem (ExtentFamily)

namespace BlockFlow

open EpochIter

variable {conf : Config} {flow flow' : BlockFlow}

/-! ## The damped average -/

theorem averageEpochs_ge (conf : Config) : 6 ≤ conf.averageEpochs := Nat.le_max_right _ 6

/-- The moving average over the epoch step, with one Epoch of this ideal length. -/
def movingAverage (conf : Config) (epochStep : Int) (idealLen : ℚ) : Int :=
  limitedTime (Rat.floor ((idealLen + ((conf.averageEpochs : ℚ) - 1) * epochStep) / conf.averageEpochs))

theorem markEpochUnderflow_eq (conf : Config) (flow : BlockFlow) (hstep : flow.epochStep_ ≠ 0)
    (actualLen : Int) (fillFactor : ℚ) :
    flow.markEpochUnderflow conf actualLen fillFactor
      = some (flow.withStep (movingAverage conf flow.epochStep_
          (actualLen / adjust conf fillFactor))) := by
  have hne : (flow.epochStep_ : ℚ) ≠ 0 := by exact_mod_cast hstep
  have hsame : (flow.epochStep_ : ℚ) * (((actualLen : ℚ) / flow.epochStep_ / adjust conf fillFactor
        + conf.averageEpochs - 1) / conf.averageEpochs)
      = ((actualLen : ℚ) / adjust conf fillFactor + ((conf.averageEpochs : ℚ) - 1) * flow.epochStep_)
        / conf.averageEpochs := by
    rw [← mul_div_assoc]
    congr 1
    rw [div_right_comm, add_sub_assoc, mul_add, mul_div_cancel₀ _ hne]
    ring
  simp only [markEpochUnderflow, if_neg hstep, adjustEpochStep, movingAverage, hsame]

/-- The average remains above a positive limit exactly when this is so for the sum over all Epochs. -/
theorem le_movingAverage_iff {epochStep least : Int} {idealLen : ℚ} (hpos : 0 < least)
    (hmax : least ≤ Lib.Time.MAX) : least ≤ movingAverage conf epochStep idealLen ↔
      (conf.averageEpochs : ℚ) * least ≤ idealLen + ((conf.averageEpochs : ℚ) - 1) * epochStep := by
  have hN : (0 : ℚ) < conf.averageEpochs := by
    have hge := averageEpochs_ge conf
    exact_mod_cast lt_of_lt_of_le (by decide) hge
  have hlimit : ∀ t : Int, least ≤ limitedTime t ↔ least ≤ t := by
    intro t
    refine ⟨fun hle => ?_, le_limitedTime_of_le hmax⟩
    by_contra hlt
    have hmono := limitedTime_mono (s := t) (t := least - 1) (by omega)
    have hself := limitedTime_le_self (t := least - 1) (by unfold Lib.Time.MIN; omega)
    omega
  rw [movingAverage, hlimit, Rat.le_floor_iff, le_div_iff₀ hN, mul_comm]

/-! ## The condition -/

/-- **The epoch step required** to discard these Epochs: the least one from which the damping does not
get below one tick. It is worked out backwards from the deadlines and the fill of the Epochs, starting
with the deadline memorised before; there is none when even the largest step is not sufficient. -/
def requiredStep (conf : Config) : Int → List EpochGate → Option Int
  | _, [] => some 1
  | pastDeadline, gate :: rest => (requiredStep conf gate.deadline rest).bind fun next =>
    let N : ℚ := conf.averageEpochs
    let fill := adjust conf (gate.getFillFactor conf.EPOCH_SIZ)
    if Lib.Time.MAX < next then none
    -- the first Epoch ever discarded counts as one of the current length
    else if pastDeadline = Lib.Time.ANYTIME then some (max 1 (Rat.ceil (N * next / (1 / fill + (N - 1)))))
    else some (max 1 (Rat.ceil ((N * next - (gate.deadline - pastDeadline) / fill) / (N - 1))))

/-- **The Epochs to discard are long enough**, relative to their fill, for the present epoch step. -/
def Damped (conf : Config) (epochStep pastDeadline : Int) (gates : List EpochGate) : Prop :=
  ∃ least ∈ requiredStep conf pastDeadline gates, least ≤ epochStep

instance (conf : Config) (epochStep pastDeadline : Int) (gates : List EpochGate) :
    Decidable (Damped conf epochStep pastDeadline gates) := by
  unfold Damped
  infer_instance

theorem adjust_pos (hconf : conf.Sound) (gate : EpochGate) : 0 < adjust conf (gate.getFillFactor conf.EPOCH_SIZ) := by
  have hfill : 0 ≤ gate.getFillFactor conf.EPOCH_SIZ / conf.TARGET_FILL := by
    have hgoal := hconf.fill_pos
    unfold EpochGate.getFillFactor
    positivity
  have hthreshold := hconf.threshold_pos
  rw [adjust]
  dsimp only
  split_ifs with hlevel
  · exact hthreshold.trans hlevel
  · have hle : gate.getFillFactor conf.EPOCH_SIZ / conf.TARGET_FILL / conf.DAMP_THRESHOLD ≤ 1 :=
      (div_le_one hthreshold).mpr (not_lt.mp hlevel)
    have hboost := hconf.boost_pos
    rcases hfill.eq_or_lt with hzero | hpos
    · rw [← hzero, zero_div, sub_zero, one_mul, mul_zero, add_zero]
      exact hboost
    · have hterm : 0 < (1 - (1 - gate.getFillFactor conf.EPOCH_SIZ / conf.TARGET_FILL /
          conf.DAMP_THRESHOLD)) * (gate.getFillFactor conf.EPOCH_SIZ / conf.TARGET_FILL) := by
        rw [sub_sub_cancel]
        positivity
      have hterm' := mul_nonneg (sub_nonneg.mpr hle) hboost.le
      exact add_pos_of_nonneg_of_pos hterm' hterm

theorem requiredStep_pos {pastDeadline least : Int} {gates : List EpochGate}
    (h : requiredStep conf pastDeadline gates = some least) : 0 < least := by
  cases gates with
  | nil =>
    cases h
    exact Int.one_pos
  | cons gate rest =>
    obtain ⟨next, -, h⟩ := Option.bind_eq_some_iff.mp h
    split_ifs at h <;> (cases h; exact lt_max_of_lt_left Int.one_pos)

/-- **The condition is exact for each Epoch**: it is what is required of the rest, for the epoch step
resulting from this one. -/
theorem damped_cons_iff (hconf : conf.Sound) {epochStep pastDeadline : Int} {gate : EpochGate}
    {rest : List EpochGate} :
    Damped conf epochStep pastDeadline (gate :: rest) ↔ 0 < epochStep ∧
      Damped conf (movingAverage conf epochStep
        (((gate.deadline - if pastDeadline = Lib.Time.ANYTIME then gate.deadline - epochStep
          else pastDeadline : Int) : ℚ) / adjust conf (gate.getFillFactor conf.EPOCH_SIZ)))
        gate.deadline rest := by
  have hN : (1 : ℚ) < conf.averageEpochs := by
    have hge := averageEpochs_ge conf
    exact_mod_cast lt_of_lt_of_le (by decide) hge
  have hfill := adjust_pos hconf gate
  unfold Damped
  rw [requiredStep]
  cases hrest : requiredStep conf gate.deadline rest with
  | none => simp
  | some next =>
    have hpos := requiredStep_pos hrest
    simp only [Option.bind_some, Option.mem_def]
    by_cases hmax : Lib.Time.MAX < next
    · -- the average is limited to the time range
      have hle := limitedTime_le (Rat.floor
        (((((gate.deadline - if pastDeadline = Lib.Time.ANYTIME then gate.deadline - epochStep
          else pastDeadline : Int) : ℚ) / adjust conf (gate.getFillFactor conf.EPOCH_SIZ))
            + ((conf.averageEpochs : ℚ) - 1) * epochStep) / conf.averageEpochs))
      simp only [if_pos hmax, reduceCtorEq, false_and, exists_false, Option.some.injEq,
        exists_eq_left', false_iff, not_and, not_le]
      exact fun _ => hle.trans_lt hmax
    simp only [Option.some.injEq, exists_eq_left']
    rw [le_movingAverage_iff hpos (not_lt.mp hmax)]
    split_ifs with hfirst
    · have hsum : 0 < 1 / adjust conf (gate.getFillFactor conf.EPOCH_SIZ)
          + ((conf.averageEpochs : ℚ) - 1) := by
        have hinv := one_div_pos.mpr hfill
        linarith
      simp only [Option.some.injEq, exists_eq_left', max_le_iff, Rat.ceil_le_iff]
      rw [div_le_iff₀ hsum, sub_sub_cancel, mul_add, mul_one_div, mul_comm (epochStep : ℚ)
        ((conf.averageEpochs : ℚ) - 1)]
      rfl
    · simp only [Option.some.injEq, exists_eq_left', max_le_iff, Rat.ceil_le_iff]
      rw [div_le_iff₀ (sub_pos.mpr hN), sub_le_iff_le_add', Int.cast_sub, mul_comm (epochStep : ℚ)]
      rfl

/-- The call keeps up the regulation, and does not use a handle left behind. -/
def Regulated (conf : Config) (flow : BlockFlow) (call : Call) : Prop :=
  flow.SettledCall call ∧ match call with
    | .discardBefore deadline =>
      Damped conf flow.epochStep_ flow.pastDeadline_ (flow.discardable deadline)
    | _ => True

instance (flow : BlockFlow) (call : Call) : Decidable (flow.Regulated conf call) :=
  match call with
  | .discardBefore _ => inferInstanceAs (Decidable (_ ∧ Damped ..))
  | .until _ _ | .create _ _ | .announceAdditionalFlow _ | .ioPending _ _ =>
    inferInstanceAs (Decidable (_ ∧ True))

/-- Regulation by Epochs of sufficient length leads to a positive epoch step. -/
theorem regulate_pos (hconf : conf.Sound) {gates : List EpochGate}
    (hdamped : Damped conf flow.epochStep_ flow.pastDeadline_ gates) :
    ∃ flow', regulate conf flow gates = some flow' ∧ 0 < flow'.epochStep_ := by
  induction gates generalizing flow with
  | nil =>
    obtain ⟨least, hleast, hle⟩ := hdamped
    exact ⟨flow, rfl, (requiredStep_pos hleast).trans_le hle⟩
  | cons gate rest ih =>
    obtain ⟨hstep, hrest⟩ := (damped_cons_iff hconf).mp hdamped
    have hmark := markEpochUnderflow_eq conf (flow.updatePastDeadline gate.deadline).2
      (show flow.epochStep_ ≠ 0 by omega)
      (gate.deadline - (flow.updatePastDeadline gate.deadline).1) (gate.getFillFactor conf.EPOCH_SIZ)
    rw [regulate, hmark]
    exact ih hrest

/-! ## New Epochs -/

/-- Each new Epoch is set up with a deadline after the one before. -/
def NewAfterPredecessor (flow flow' : BlockFlow) : Prop :=
  ∀ p e e' : Nat, flow'.active[p]? = some e → flow'.active[p + 1]? = some e' → e' ∉ flow.active →
    (flow'.storage e).deadline < (flow'.storage e').dead

theorem newAfterPredecessor_of_subset (hsubset : ∀ e ∈ flow'.active, e ∈ flow.active) :
    NewAfterPredecessor flow flow' := by
  intro p e e' _ hnext hfresh
  exact absurd (hsubset e' (mem_of_getElem? hnext)) hfresh

theorem newAfterPredecessor_of_extends {new : List Nat} (hext : Extends flow flow' new)
    (hfirst : ∀ last e', flow.active.getLast? = some last → new[0]? = some e' →
      (flow.storage last).deadline < (flow'.storage e').dead)
    (hnext : ∀ i e e' : Nat, new[i]? = some e → new[i + 1]? = some e' →
      (flow'.storage e).deadline < (flow'.storage e').dead) : NewAfterPredecessor flow flow' := by
  intro p e e' hget hget' hfresh
  rw [hext.active_eq] at hget hget'
  have hbeyond : flow.active.length ≤ p + 1 := by
    by_contra hlt
    rw [getElem?_append_left (by omega)] at hget'
    exact hfresh (mem_of_getElem? hget')
  rw [getElem?_append_right hbeyond] at hget'
  rcases hbeyond.lt_or_eq with hlt | heq
  · rw [getElem?_append_right (by omega)] at hget
    apply hnext (p - flow.active.length) e e' hget
    rw [← hget']
    congr 1
    omega
  · -- the predecessor is the last Epoch there was
    rw [getElem?_append_left (by omega)] at hget
    have hlast : flow.active.getLast? = some e := by
      rw [getLast?_eq_getElem?, heq, Nat.add_sub_cancel, hget]
    rw [hext.deadline_eq (mem_of_getElem? hget)]
    apply hfirst e e' hlast
    rw [← hget', heq, Nat.sub_self]

theorem IsGrid.newAfterPredecessor {deadline : Int} {new : List Nat} (hext : Extends flow flow' new)
    (hgrid : IsGrid conf deadline flow flow' new) : NewAfterPredecessor flow flow' := by
  obtain ⟨last, hlast, -, hstep, n, -, -, -, hset⟩ := hgrid
  obtain ⟨hlo, -⟩ := (flow.storage last).deadline_range
  apply newAfterPredecessor_of_extends hext
  · intro last' e' hlast' hget
    obtain rfl : last = last' := by
      rw [hlast] at hlast'
      exact Option.some.inj hlast'
    rw [hset 0 e' hget]
    show _ < (flow.storage last).deadline + (((0 : Nat) : Int) + 1) * flow.epochStep_
    omega
  · intro i e e' hget hget'
    rw [hset i e hget, hset (i + 1) e' hget']
    show limitedTime ((flow.storage last).deadline + ((i : Int) + 1) * flow.epochStep_)
      < (flow.storage last).deadline + (((i + 1 : Nat) : Int) + 1) * flow.epochStep_
    have hnonneg : 0 ≤ ((i : Int) + 1) * flow.epochStep_ := mul_nonneg (by omega) hstep.le
    have hself := limitedTime_le_self
      (t := (flow.storage last).deadline + ((i : Int) + 1) * flow.epochStep_) (by omega)
    have hgrow : (((i + 1 : Nat) : Int) + 1) * flow.epochStep_
        = ((i : Int) + 1) * flow.epochStep_ + flow.epochStep_ := by
      push_cast
      ring
    omega

/-! ## One call -/

/-- A regulated call keeps the step positive, and sets up new Epochs in order. -/
theorem perform_regulated (hconf : conf.Sound) (h : flow.Sane) {call : Call}
    (hstep : 0 < flow.epochStep_) (hcall : flow.Regulated conf call) {outcome : Outcome}
    (hperform : perform conf flow call = some (outcome, flow')) :
    0 < flow'.epochStep_ ∧ NewAfterPredecessor flow flow' := by
  obtain ⟨hsettled, hdamped⟩ := hcall
  cases perform_cases hconf h hsettled hperform with
  | refused => exact ⟨hstep, newAfterPredecessor_of_subset fun _ he => he⟩
  | given hgiven =>
    refine ⟨by rw [hgiven.step_eq]; exact hstep, ?_⟩
    rcases hgiven.created with ⟨hnil, e, rfl, -, -⟩ | ⟨rfl, -, -, -⟩ | ⟨hgrid, -⟩
    · apply newAfterPredecessor_of_extends hgiven.ext
      · simp [hnil]
      · simp
    · apply newAfterPredecessor_of_subset
      rw [hgiven.ext.active_eq, append_nil]
      exact fun _ he => he
    · exact hgrid.newAfterPredecessor hgiven.ext
  | allocated _ halloc _ =>
    refine ⟨halloc.step_pos hstep, ?_⟩
    apply newAfterPredecessor_of_extends halloc.ext
    · intro last e' hlast hget
      obtain ⟨last', hlast', δ, -, hpos, hdead⟩ := halloc.new_fresh e' (mem_of_getElem? hget)
      obtain rfl : last' = last := by
        rw [hlast'] at hlast
        exact Option.some.inj hlast
      omega
    · intro i e e' _ hget'
      have hle := halloc.new_le
      obtain ⟨hlt, -⟩ := List.getElem?_eq_some_iff.mp hget'
      omega
  | @cleared _ _ alloc hreg hdrop =>
    obtain ⟨mid, hreg', hpos⟩ := regulate_pos hconf hdamped
    rw [hreg'] at hreg
    cases hreg
    refine ⟨hpos, newAfterPredecessor_of_subset ?_⟩
    have hactive : alloc.active = flow.active.drop _ :=
      (Lumiera.Vault.Mem.ExtentFamily.dropOld_active h.valid hdrop).1
    intro e he
    have he : e ∈ alloc.active := he
    rw [hactive] at he
    exact mem_of_mem_drop he
  | @announced additionalFps =>
    obtain ⟨halloc, -, -⟩ := announceAdditionalFlow_alloc conf flow additionalFps
    constructor
    · have hcutOff := hconf.cutOff_pos
      cases hspacing : conf.adaptedSpacing flow.getEpochStep additionalFps with
      | none =>
        rw [announceAdditionalFlow, hspacing]
        exact hstep
      | some spacing =>
        rw [announceAdditionalFlow, hspacing]
        exact lt_of_lt_of_le hcutOff (le_max_right _ _)
    · apply newAfterPredecessor_of_subset
      rw [active, halloc]
      exact fun _ he => he
  | pending => exact ⟨hstep, newAfterPredecessor_of_subset fun _ he => he⟩

/-! ## Runs -/

/-- **The regulation works**: the step is positive, hence `until` is defined for every deadline, and new
Epochs are set up in order by every call which meets the condition. -/
structure WellRegulated (conf : Config) (C : BlockFlow → Call → Prop) (flow : BlockFlow) : Prop where
  step_pos : 0 < flow.epochStep_
  until_defined : ∀ deadline memory, (flow.until conf deadline memory).isSome
  new_after : ∀ call outcome flow', C flow call → perform conf flow call = some (outcome, flow') →
    NewAfterPredecessor flow flow'

theorem wellRegulated_of_reachable (hconf : conf.Sound)
    (hreach : ((machine conf).restrict (Regulated conf)).Reachable flow) :
    WellRegulated conf (Regulated conf) flow := by
  have hinv : flow.Sane ∧ 0 < flow.epochStep_ := by
    refine Machine.Invariant.reachable (P := fun flow => flow.Sane ∧ 0 < flow.epochStep_)
      ⟨?_, ?_⟩ hreach
    · rintro flow ⟨uninitialised, rfl⟩
      exact ⟨initial_sane conf uninitialised, lt_of_lt_of_le hconf.cutOff_pos hconf.cutOff_le⟩
    · rintro flow call flow' ⟨hsane, hstep⟩ ⟨hcall, outcome, hperform⟩
      exact ⟨(perform_sane hconf hsane hcall.1 hperform).1,
        (perform_regulated hconf hsane hstep hcall hperform).1⟩
  obtain ⟨hsane, hstep⟩ := hinv
  refine ⟨hstep, fun deadline memory => ?_, fun call outcome flow' hcall hperform => ?_⟩
  · rcases until_cases conf hsane.valid deadline memory with
      ⟨-, hnonpos⟩ | ⟨error, herror⟩ | ⟨nr, flow', pos, new, hok, -⟩
    · omega
    · rw [herror]
      rfl
    · rw [hok]
      rfl
  · exact (perform_regulated hconf hsane hstep hcall hperform).2

/-- A run which discards Epochs while the regulation is kept up. -/
theorem wellRegulated_after_discard : ∃ flow, flow.epochStep_ = 201881 ∧
    WellRegulated Config.default (Regulated Config.default) flow := by
  obtain ⟨flow, hreach, hp⟩ := exists_reachable Config.default (Regulated Config.default)
    (fun _ => ⟨0, 0, 0⟩) exampleCalls (fun flow => decide (flow.epochStep_ = 201881))
    (by decide +kernel)
  exact ⟨flow, of_decide_eq_true hp, wellRegulated_of_reachable default_sound hreach⟩

/-- **The step becomes negative** when all Epochs are discarded, and then an Epoch with a much earlier
deadline is created and discarded. -/
theorem not_regulated_after_rewind : ¬ ∀ flow, ((machine Config.default).restrict fun _ _ => True).Reachable flow →
    WellRegulated Config.default (fun _ _ => True) flow := by
  intro hclaim
  obtain ⟨flow, hreach, hp⟩ := exists_reachable Config.default (fun _ _ => True)
    (fun _ => ⟨0, 0, 0⟩)
    [.until 1000000000 true, .discardBefore 2000000000, .until 0 true, .discardBefore 2000000000]
    (fun flow => decide (flow.epochStep_ < 0)) (by decide +kernel)
  have hneg := of_decide_eq_true hp
  have hpos := (hclaim flow hreach).step_pos
  omega

end BlockFlow

end Lumiera.Vault.Gear.Extents
