import Lumiera.Lib.Time.GridAlignment
import Lumiera.Lib.Time.TimeLimitsSeconds

/-! # Time entities under mutation

A message which sets a value keeps a time entity valid, while an adjustment does so just when the
adjusted value is within the limits, as nothing limits the sum. In all cases start and length are
changed apart from each other, nothing is changed when an error is raised, and listeners are passed
the value of the target. -/

namespace Lumiera.Lib.RawTime

open List

/-! ## Valid time entities -/

/-- Within the range of durations, from zero to `Duration::MAX`. -/
def InDurationRange (dur : gavl_time_t) : Prop := 0 ≤ dur ∧ dur ≤ durationMax

instance (dur : gavl_time_t) : Decidable (InDurationRange dur) := inferInstanceAs (Decidable (_ ∧ _))

theorem inDurationRange_iff (dur : gavl_time_t) : InDurationRange dur ↔ 0 ≤ dur.toInt ∧ dur.toInt ≤ maxTicks := by
  rw [InDurationRange, Int64.le_iff_toInt_le, Int64.le_iff_toInt_le, Int64.toInt_zero, toInt_durationMax]

/-- **A valid time entity**: times and lengths are within their range. -/
def Target.Valid : (tar : Target) → tar.Val → Prop
  | .duration, dur => InDurationRange dur
  | .timeSpan, span => InTimeRange span.start ∧ InDurationRange span.dur_
  | .quTime, qu => InTimeRange qu.raw

/-- A valid value for a control. -/
def TimeType.Valid : (ti : TimeType) → ti.Val → Prop
  | .timeValue, t => InTimeRange t
  | .time, t => InTimeRange t
  | .duration, dur => InDurationRange dur
  | .timeSpan, span => Target.timeSpan.Valid span
  | .quTime, qu => Target.quTime.Valid qu

/-- The range of the time value an entity is based on. -/
def Target.InLimits : Target → ℤ → Prop
  | duration, x => 0 ≤ x ∧ x ≤ maxTicks
  | timeSpan, x => InTicks x
  | quTime, x => InTicks x

variable {bits : ℕ} {tar k : Target} {ti : TimeType}

variable {target : tar.Val}

theorem Target.valid_assign_iff (h : tar.Valid target) (t : gavl_time_t) :
    tar.Valid (tar.assign target t) ↔ tar.InLimits t.toInt := by
  cases tar with
  | duration => exact inDurationRange_iff t
  | timeSpan => exact (and_iff_left h.2).trans (inTimeRange_iff t)
  | quTime => exact inTimeRange_iff t

theorem Target.Valid.inLimits (h : tar.Valid target) : tar.InLimits (tar.time target).toInt := by
  cases tar with
  | duration => exact (inDurationRange_iff _).mp h
  | timeSpan => exact (inTimeRange_iff _).mp h.1
  | quTime => exact (inTimeRange_iff _).mp h

theorem Target.inLimits_add_iff {x : gavl_time_t} (hx : tar.InLimits x.toInt) (o : gavl_time_t) :
    tar.InLimits (x + o).toInt ↔ tar.InLimits (x.toInt + o.toInt) := by
  obtain ⟨hlow, hhigh⟩ := representable_toInt o
  obtain ⟨hsumLow, hsumHigh⟩ := representable_bmod (x.toInt + o.toInt)
  obtain ⟨times, htimes⟩ := exists_bmod_eq (x.toInt + o.toInt)
  have hmax := maxTicks_eq
  rw [Int64.toInt_add]
  cases tar with
  | duration =>
    unfold InLimits at *
    omega
  | timeSpan =>
    simp only [InLimits, InTicks] at *
    omega
  | quTime =>
    simp only [InLimits, InTicks] at *
    omega

theorem Place.valid_get (place : Place k tar) {val : k.Val} (h : k.Valid val) : tar.Valid (place.get val) := by
  cases place with
  | self => exact h
  | length => exact h.2

theorem Place.valid_set_iff (place : Place k tar) {val : k.Val} (h : k.Valid val) (part : tar.Val) :
    k.Valid (place.set val part) ↔ tar.Valid part := by
  cases place with
  | self => exact Iff.rfl
  | length => exact and_iff_right h.1

/-! ## Imposing a change -/

/-- **The change leads to a valid value**: the exact sum is within the limits, or the steps do not
lead to the one grid point which passes the limiter. -/
def Change.Fits : (tar : Target) → tar.Val → Change → Prop
  | tar, _, .value valueToSet => tar.InLimits valueToSet.toInt
  | tar, target, .offset o => tar.InLimits ((tar.time target).toInt + o.toInt)
  | .quTime, target, .steps n =>
    ¬ 2 ^ 64 ∣ target.quantiser_.startOf ((target.quantiser_.gridPoint target.raw).toInt + n.toInt) - 2 ^ 63
  | tar, target, .steps n => tar.InLimits ((tar.time target).toInt + n.toInt * 1000000)

theorem roundBits_zero (bits : ℕ) : roundBits bits 0 = 0 :=
    roundBits_natCast (n := 0) (by positivity)

/-- Whole seconds have no remainder to be quantised. -/
theorem toInt_wholeSeconds (steps : Int32) :
    (limitedTime (rationalToTime bits (wholeSeconds steps))).toInt = steps.toInt * 1000000 := by
  have hlow := steps.le_toInt
  have hhigh := steps.toInt_lt
  have hone : (1 : Int64).toInt = 1 := rfl
  have hremainder : quantisedRemainder bits (steps.toInt64 % 1) 1 SCALE = 0 := by
    have hzero : steps.toInt64 % 1 = 0 := by
      rw [← Int64.toInt_inj, Int64.toInt_mod, hone, Int.tmod_one]
      rfl
    rw [hzero, quantisedRemainder]
    simp only [Int64.toInt_zero, Int.cast_zero, roundBits_zero, zero_div, zero_mul]
    rfl
  have hsmall : (wholeSeconds steps).numerator.toInt = -2 ^ 63 ∨
      |(wholeSeconds steps).numerator.toInt| ≤
        FSEC_MAX.toInt * (wholeSeconds steps).denominator.toInt := by
    right
    simp only [wholeSeconds, Int32.toInt_toInt64, toInt_FSEC_MAX]
    rw [abs_le]
    omega
  have hticks : (rationalToTime bits (wholeSeconds steps)).toInt = steps.toInt * 1000000 := by
    have hfits : Representable (steps.toInt * 1000000) := ⟨by omega, by omega⟩
    rw [rationalToTime_of_small hsmall]
    simp only [wholeSeconds, reQuant, hremainder]
    rw [Int64.toInt_add, Int64.toInt_mul, Int64.toInt_div, Int32.toInt_toInt64, hone, Int.tdiv_one,
      toInt_SCALE, Int64.toInt_zero, add_zero, Int.bmod_bmod]
    rw [Representable.bmod (x := steps.toInt) ⟨by omega, by omega⟩]
    exact hfits.bmod
  rw [limitedTime, toInt_symmetricLimit _ (by decide), toInt_timeMax]
  split_ifs <;> omega

/-- The limiter of times fails for the smallest integer only. -/
theorem inLimits_limitedTime_iff (raw : gavl_time_t) : InTicks (limitedTime raw).toInt ↔ raw.toInt ≠ -2 ^ 63 := by
  rw [limitedTime, toInt_symmetricLimit _ (by decide), toInt_timeMax]
  unfold InTicks
  split_ifs <;> omega

theorem toInt_timeOfGridpoint (grid : FixedFrameQuantiser) (n : Int64) :
    (timeOfGridpoint n grid.origin_ grid.raster_).toInt = (grid.startOf n.toInt).bmod (2 ^ 64) := by
  rw [timeOfGridpoint, Int64.toInt_add, Int64.toInt_mul, Int.add_bmod_bmod, FixedFrameQuantiser.startOf]

/-- What an adjustment does to a valid time entity. -/
theorem valid_imposeChange_iff (bits : ℕ) (h : tar.Valid target) (change : Change) :
    tar.Valid (imposeChange bits tar target change) ↔ change.Fits tar target := by
  cases change with
  | value t => cases tar <;> exact Target.valid_assign_iff h t
  | offset o =>
    have hsum := Target.inLimits_add_iff h.inLimits o
    cases tar <;> exact (Target.valid_assign_iff h _).trans hsum
  | steps n =>
    have hseconds := Target.inLimits_add_iff h.inLimits (limitedTime (rationalToTime bits (wholeSeconds n)))
    rw [toInt_wholeSeconds] at hseconds
    cases tar with
    | duration => exact (Target.valid_assign_iff h _).trans hseconds
    | timeSpan => exact (Target.valid_assign_iff h _).trans hseconds
    | quTime =>
      refine (Target.valid_assign_iff h _).trans ?_
      rw [Change.Fits, ← bmod_eq_smallest_iff, ← FixedFrameQuantiser.toInt_gridPoint_add h,
        ← toInt_timeOfGridpoint]
      exact inLimits_limitedTime_iff _

/-! ## Messages -/

/-- The message carries a valid time, or a valid duration. -/
def Mutation.Valid : Mutation → Prop
  | setNewStartTime newTime => InTimeRange newTime
  | setNewDuration changed => InDurationRange changed
  | imposeOffset _ => True
  | naturalNudge _ => True

/-- **Adjustments have to fit**; other messages always do. -/
def Mutation.Fits : Mutation → (tar : Target) → tar.Val → Prop
  | imposeOffset adjustment, tar, target => (Change.offset adjustment).Fits tar target
  | naturalNudge steps, tar, target => (Change.steps steps).Fits tar target
  | setNewStartTime _, _, _ => True
  | setNewDuration _, _, _ => True

theorem Mutation.change_imposeOffset (adjustment : gavl_time_t) (target : tar.Val) :
    ((imposeOffset adjustment).change bits tar target).1 = imposeChange bits tar target (.offset adjustment) := by
  cases tar <;> rfl

theorem Mutation.change_naturalNudge (steps : Int32) (target : tar.Val) :
    ((naturalNudge steps).change bits tar target).1 = imposeChange bits tar target (.steps steps) := by
  cases tar <;> rfl

/-- A message keeps the target valid just when it fits. -/
theorem Mutation.valid_change_iff {m : Mutation} (hm : m.Valid) (h : tar.Valid target) :
    tar.Valid (m.change bits tar target).1 ↔ m.Fits tar target := by
  cases m with
  | setNewStartTime newTime =>
    have htime : InTicks newTime.toInt := (inTimeRange_iff _).mp hm
    cases tar with
    | duration => exact iff_of_true h trivial
    | timeSpan => exact iff_of_true ((Target.valid_assign_iff h newTime).mpr htime) trivial
    | quTime => exact iff_of_true ((Target.valid_assign_iff h newTime).mpr htime) trivial
  | setNewDuration changed =>
    cases tar with
    | duration => exact iff_of_true hm trivial
    | timeSpan => exact iff_of_true ⟨h.1, hm⟩ trivial
    | quTime => exact iff_of_true h trivial
  | imposeOffset adjustment =>
    rw [change_imposeOffset, valid_imposeChange_iff bits h, Fits]
  | naturalNudge steps =>
    rw [change_naturalNudge, valid_imposeChange_iff bits h, Fits]

/-- An error leaves the target as it was. -/
theorem Mutation.change_of_raised {m : Mutation} {e : TimeError} (h : (m.change bits tar target).2 = some e) :
    (m.change bits tar target).1 = target ∧ e.id = INVALID_MUTATION := by
  cases m <;> cases tar <;> cases h <;> exact ⟨rfl, rfl⟩

/-- Either the start or the length of a time span is left alone. -/
def Target.Framed : (k : Target) → k.Val → k.Val → Prop
  | .timeSpan, before, after => after.start = before.start ∨ after.dur_ = before.dur_
  | .duration, _, _ => True
  | .quTime, _, _ => True

/-- Start and length are not changed by the same message. -/
theorem Mutation.framed (place : Place k tar) (m : Mutation) (val : k.Val) :
    k.Framed val (place.set val (m.change bits tar (place.get val)).1) := by
  cases place with
  | length => exact Or.inl rfl
  | self =>
    cases tar with
    | duration => trivial
    | quTime => trivial
    | timeSpan =>
      cases m with
      | setNewStartTime newTime => exact Or.inr rfl
      | setNewDuration changed => exact Or.inl rfl
      | imposeOffset adjustment => exact Or.inr rfl
      | naturalNudge steps => exact Or.inr rfl

/-! ## Listeners -/

/-- **The value of the target, in terms of the interface type**: quantised times are aligned to their
grid; a time span shows a mere time as its start, and a mere length as its length. -/
def Shows : (ti : TimeType) → ti.Val → (tar : Target) → tar.Val → Prop
  | .timeValue, t, tar, target => t = tar.time (tar.maybeMaterialise target)
  | .time, t, tar, target => t = tar.time (tar.maybeMaterialise target)
  | .duration, dur, .duration, target => dur = target
  | .duration, dur, .timeSpan, target => dur = target.dur_
  | .duration, dur, .quTime, target => dur.toInt = |target.aligned.raw.toInt|
  | .timeSpan, span, .duration, target => span.start = 0 ∧ span.dur_ = target
  | .timeSpan, span, .timeSpan, target => span = target
  | .timeSpan, span, .quTime, target => span.start = target.aligned.raw ∧ span.dur_ = durationNil
  | .quTime, qu, .quTime, target => qu = target.aligned
  | .quTime, qu, tar, target => qu.raw = tar.time target

theorem toInt_durationOf {t : gavl_time_t} (h : InTimeRange t) :
    (durationOf (symmetricLimit t durationMax)).toInt = |t.toInt| := by
  rw [inTimeRange_iff] at h
  have hmax := maxTicks_eq
  have hsame : symmetricLimit t durationMax = t :=
    Int64.toInt_inj.mp (symmetricLimit_of_le (by omega) (by omega))
  rw [hsame, durationOf]
  simp only [Int64.lt_iff_toInt_lt]
  split_ifs with hneg
  · rw [abs_of_neg hneg, Int64.toInt_neg]
    exact Representable.bmod ⟨by omega, by omega⟩
  · rw [abs_of_nonneg (not_lt.mp hneg)]

/-- The notification value shows the target. -/
theorem shows_buildChangedValue (h : tar.Valid target) :
    Shows ti (buildChangedValue ti tar (tar.maybeMaterialise target)) tar target := by
  cases ti with
  | timeValue => rfl
  | time => rfl
  | duration =>
    cases tar with
    | duration => rfl
    | timeSpan => rfl
    | quTime => exact toInt_durationOf (FixedFrameQuantiser.inTimeRange_materialise h)
  | timeSpan =>
    cases tar with
    | duration => exact ⟨rfl, rfl⟩
    | timeSpan => rfl
    | quTime => exact ⟨rfl, rfl⟩
  | quTime => cases tar <;> rfl

theorem valid_setVal (h : tar.Valid target) {newValue : ti.Val} (hv : ti.Valid newValue) :
    tar.Valid (setVal bits ti tar target newValue).1 := by
  cases tar with
  | duration =>
    cases ti with
    | duration => exact hv
    | timeSpan => exact hv.2
    | timeValue => exact h
    | time => exact h
    | quTime => exact h
  | timeSpan =>
    cases ti with
    | duration => exact ⟨h.1, hv⟩
    | timeSpan => exact hv
    | timeValue => exact ⟨hv, h.2⟩
    | time => exact ⟨hv, h.2⟩
    | quTime => exact ⟨FixedFrameQuantiser.inTimeRange_materialise hv, h.2⟩
  | quTime =>
    cases ti with
    | duration => exact h
    | timeSpan => exact hv.1
    | timeValue => exact hv
    | time => exact hv
    | quTime => exact FixedFrameQuantiser.inTimeRange_materialise hv

/-- What is passed to the listeners when a value is fed: a length is not imposed onto a point in
time, and then they are passed no length at all. -/
def ShowsValue : (ti : TimeType) → ti.Val → (tar : Target) → tar.Val → tar.Val → Prop
  | .duration, dur, .quTime, before, after => dur = durationNil ∧ after = before
  | ti, val, tar, _, after => Shows ti val tar after

/-- Feeding a value notifies of the target changed. -/
theorem shows_setVal {newValue : ti.Val} (hvalid : tar.Valid (setVal bits ti tar target newValue).1) :
    ShowsValue ti (setVal bits ti tar target newValue).2 tar target (setVal bits ti tar target newValue).1 := by
  have hshows : Shows ti (buildChangedValue ti tar (tar.maybeMaterialise (setVal bits ti tar target newValue).1)) tar
      (setVal bits ti tar target newValue).1 := shows_buildChangedValue hvalid
  cases tar with
  | duration => cases ti <;> exact hshows
  | timeSpan => cases ti <;> exact hshows
  | quTime =>
    cases ti with
    | duration => exact ⟨rfl, rfl⟩
    | timeSpan => exact hshows
    | timeValue => exact hshows
    | time => exact hshows
    | quTime => exact hshows

/-! ## Runs -/

/-- The event carries a valid value. -/
def ControlEvent.Valid : ControlEvent ti k → Prop
  | .accept _ m => m.Valid
  | .setVal newValue => ti.Valid newValue
  | _ => True

/-- **Adjustments have to fit**, those in a message as well as those which reach the target by the
control. -/
def ControlEvent.Fits (place : Place k tar) (sys : Controlled ti k) : ControlEvent ti k → Prop
  | .accept at_ m => m.Fits _ (at_.get sys.entity)
  | .offset adjustment => sys.isArmed = true → (Change.offset adjustment).Fits tar (place.get sys.entity)
  | .nudge steps => sys.isArmed = true → (Change.steps steps).Fits tar (place.get sys.entity)
  | _ => True

/-- What the listeners are told of an event. -/
def ControlEvent.Notifies (place : Place k tar) (sys : Controlled ti k) (val : ti.Val)
    (after : Controlled ti k) : ControlEvent ti k → Prop
  | .setVal _ => ShowsValue ti val tar (place.get sys.entity) (place.get after.entity)
  | _ => Shows ti val tar (place.get after.entity)

namespace Controlled

variable {place : Place k tar} {sys : Controlled ti k}

variable {change : tar.Val → tar.Val × ti.Val}

theorem valid_feed_iff (h : k.Valid sys.entity) : k.Valid (sys.feed place change).after.entity ↔
    (sys.isArmed = true → tar.Valid (change (place.get sys.entity)).1) := by
  unfold feed
  split_ifs with harmed
  · exact (place.valid_set_iff h _).trans (by rw [harmed, imp_iff_right rfl])
  · exact iff_of_true h fun harmed' => absurd harmed' harmed

theorem valid_connect (h : k.Valid sys.entity) (toNotify : ℕ) :
    k.Valid (sys.connect bits place toNotify).after.entity := by
  unfold connect
  split_ifs with harmed
  · have hlimits := (place.valid_get h).inLimits
    have hfits : (Change.offset 0).Fits tar (place.get sys.entity) := by
      rw [← Int.add_zero (Int64.toInt _)] at hlimits
      cases tar <;> exact hlimits
    exact (place.valid_set_iff h _).mpr ((valid_imposeChange_iff bits (place.valid_get h) _).mpr hfits)
  · exact h

variable {event : ControlEvent ti k}

/-- One event keeps the entity valid just when its adjustment fits. -/
theorem valid_step_iff (h : k.Valid sys.entity) (hevent : event.Valid) :
    k.Valid (sys.step bits place event).after.entity ↔ event.Fits place sys := by
  have htarget := place.valid_get h
  cases event with
  | accept at_ m =>
    exact (at_.valid_set_iff h _).trans (Mutation.valid_change_iff hevent (at_.valid_get h))
  | attach => exact iff_of_true h trivial
  | disconnect => exact iff_of_true h trivial
  | connectChangeNotification toNotify => exact iff_of_true (valid_connect h toNotify) trivial
  | setVal newValue =>
    exact iff_of_true ((valid_feed_iff h).mpr fun _ => valid_setVal htarget hevent) trivial
  | offset adjustment =>
    have hchange := valid_imposeChange_iff bits htarget (.offset adjustment)
    exact (valid_feed_iff h).trans (imp_congr_right fun _ => hchange)
  | nudge steps =>
    have hchange := valid_imposeChange_iff bits htarget (.steps steps)
    exact (valid_feed_iff h).trans (imp_congr_right fun _ => hchange)

variable {notice : ℕ × ti.Val}

theorem notified_feed
    (hin : notice ∈ (sys.feed place change).notified) :
    notice.2 = (change (place.get sys.entity)).2 ∧
      place.get (sys.feed place change).after.entity = (change (place.get sys.entity)).1 := by
  unfold feed at *
  split_ifs at * with harmed
  · obtain ⟨listener, -, rfl⟩ := mem_map.mp hin
    exact ⟨rfl, Place.get_set ..⟩
  · exact absurd hin not_mem_nil

theorem shows_feed
    (hchange : ∀ target, (change target).2 = buildChangedValue ti tar (tar.maybeMaterialise (change target).1))
    (hafter : k.Valid (sys.feed place change).after.entity) (hin : notice ∈ (sys.feed place change).notified) :
    Shows ti notice.2 tar (place.get (sys.feed place change).after.entity) := by
  have htarget := place.valid_get hafter
  obtain ⟨hval, hpart⟩ := notified_feed hin
  rw [hpart] at htarget ⊢
  rw [hval, hchange]
  exact shows_buildChangedValue htarget

/-- Listeners are told of the target's value after the event. -/
theorem notifies_step (hafter : k.Valid (sys.step bits place event).after.entity)
    (hin : notice ∈ (sys.step bits place event).notified) :
    event.Notifies place sys notice.2 (sys.step bits place event).after := by
  have htarget := place.valid_get hafter
  cases event with
  | accept at_ m => exact absurd hin not_mem_nil
  | attach => exact absurd hin not_mem_nil
  | disconnect => exact absurd hin not_mem_nil
  | connectChangeNotification toNotify =>
    simp only [step, connect, ControlEvent.Notifies] at *
    split_ifs at * with harmed
    · obtain rfl := mem_singleton.mp hin
      rw [Place.get_set] at htarget ⊢
      exact shows_buildChangedValue htarget
    · exact absurd hin not_mem_nil
  | setVal newValue =>
    obtain ⟨hval, hpart⟩ := notified_feed hin
    simp only [step, ControlEvent.Notifies] at *
    rw [hpart] at htarget ⊢
    rw [hval]
    exact shows_setVal htarget
  | offset adjustment => exact shows_feed (fun _ => rfl) hafter hin
  | nudge steps => exact shows_feed (fun _ => rfl) hafter hin

theorem entity_of_raised {e : TimeError} (h : (sys.step bits place event).raised = some e) :
    (sys.step bits place event).after.entity = sys.entity := by
  have hfeed : ∀ change : tar.Val → tar.Val × ti.Val, (sys.feed place change).raised = some e →
      (sys.feed place change).after.entity = sys.entity := by
    intro change hraised
    unfold feed at hraised ⊢
    split_ifs at hraised ⊢ with harmed
    · rfl
  cases event with
  | accept at_ m =>
    have hsame := (Mutation.change_of_raised h).1
    simp only [step, hsame, Place.set_get]
  | attach => rfl
  | disconnect => rfl
  | connectChangeNotification toNotify =>
    simp only [step, connect] at h ⊢
    split_ifs at h ⊢ with harmed
  | setVal newValue => exact hfeed _ h
  | offset adjustment => exact hfeed _ h
  | nudge steps => exact hfeed _ h

/-- **What holds of each event**: start and length are changed apart by messages, errors are without
effect, and listeners are told the value. -/
structure StepSound (bits : ℕ) (place : Place k tar) (sys : Controlled ti k) (event : ControlEvent ti k) :
    Prop where
  framed : ∀ {tar'} (at_ : Place k tar') m, event = .accept at_ m →
    k.Framed sys.entity (sys.step bits place event).after.entity
  unchanged : ∀ e, (sys.step bits place event).raised = some e →
    (sys.step bits place event).after.entity = sys.entity
  notifies : k.Valid (sys.step bits place event).after.entity →
    ∀ notice ∈ (sys.step bits place event).notified,
      event.Notifies place sys notice.2 (sys.step bits place event).after

theorem stepSound (event : ControlEvent ti k) : StepSound bits place sys event where
  framed at_ m heq := by
    subst heq
    exact Mutation.framed at_ m sys.entity
  unchanged _ h := entity_of_raised h
  notifies hafter _ hin := notifies_step hafter hin

variable {events : List (ControlEvent ti k)}

theorem outcome_of_mem_trace {entry : Controlled ti k × ControlEvent ti k × Outcome ti k}
    (h : entry ∈ sys.trace bits place events) : entry.2.2 = entry.1.step bits place entry.2.1 := by
  induction events generalizing sys with
  | nil => exact absurd h not_mem_nil
  | cons event events ih =>
    rcases mem_cons.mp h with rfl | h
    · rfl
    · exact ih h

/-- In a run of valid events, all the states reached are valid just when all the adjustments fit. -/
theorem trace_valid_iff (hevents : ∀ event ∈ events, event.Valid) (h : k.Valid sys.entity) :
    (∀ entry ∈ sys.trace bits place events, k.Valid entry.2.2.after.entity) ↔ ∀ entry ∈ sys.trace bits place events,
    entry.2.1.Fits place entry.1 := by
  induction events generalizing sys with
  | nil => exact iff_of_true (fun _ hin => absurd hin not_mem_nil) fun _ hin => absurd hin not_mem_nil
  | cons event events ih =>
    rw [forall_mem_cons] at hevents
    obtain ⟨hevent, hevents⟩ := hevents
    simp only [trace, forall_mem_cons]
    rw [valid_step_iff h hevent]
    -- the rest of the run starts from a valid state when the first adjustment fits
    exact and_congr_right fun hfits => ih hevents ((valid_step_iff h hevent).mpr hfits)

/-- **Time entities stay valid**, in every run, as long as no adjustment leads beyond the limits; and
each event is sound. -/
theorem run_keeps_valid {events : List (ControlEvent ti k)} (hevents : ∀ event ∈ events, event.Valid)
    (h : k.Valid sys.entity) :
    ((∀ entry ∈ sys.trace bits place events, k.Valid entry.2.2.after.entity) ↔
      ∀ entry ∈ sys.trace bits place events, entry.2.1.Fits place entry.1) ∧
    ∀ entry ∈ sys.trace bits place events,
      entry.2.2 = entry.1.step bits place entry.2.1 ∧ StepSound bits place entry.1 entry.2.1 :=
  ⟨trace_valid_iff hevents h, fun _ hin => ⟨outcome_of_mem_trace hin, stepSound _⟩⟩

/-- A time span of two seconds, one hour after zero; a control for durations is going to be attached
to its length. -/
def oneHour : Controlled .duration .timeSpan where
  entity := { start := 3600000000, dur_ := 2000000 : TimeSpan }
  isArmed := false
  listeners_ := [1]

/-- The start is moved back by a minute, then the length is reduced to one second, by offset. -/
theorem run_keeps_valid_oneHour :
    (∀ event ∈ ([.accept .self (.adjust (-60000000)), .attach, .offset (-1000000)] :
      List (ControlEvent .duration .timeSpan)), event.Valid) ∧
    ((oneHour.trace 64 .length [.accept .self (.adjust (-60000000)), .attach, .offset (-1000000)]).map
      fun entry => (entry.2.2.after.entity, entry.2.2.notified)) =
      [(⟨3540000000, 2000000⟩, []), (⟨3540000000, 2000000⟩, []), (⟨3540000000, 1000000⟩, [(1, 1000000)])] ∧
    ∀ entry ∈ oneHour.trace 64 .length [.accept .self (.adjust (-60000000)), .attach, .offset (-1000000)],
      Target.timeSpan.Valid entry.2.2.after.entity := by
  have hevents : ∀ event ∈ ([.accept .self (.adjust (-60000000)), .attach, .offset (-1000000)] :
      List (ControlEvent .duration .timeSpan)), event.Valid := by
    simp [Mutation.adjust, ControlEvent.Valid, Mutation.Valid]
  refine ⟨hevents, by decide +kernel, ?_⟩
  refine (run_keeps_valid hevents (show Target.timeSpan.Valid oneHour.entity from ?_)).1.mpr ?_
  · exact ⟨by decide, by decide⟩
  · simp only [trace, forall_mem_cons]
    refine ⟨?_, trivial, fun _ => ?_, fun _ h => absurd h not_mem_nil⟩
    · exact ⟨by decide +kernel, by decide +kernel⟩
    · exact ⟨by decide +kernel, by decide +kernel⟩

/-- A quantised time at ten seconds, with a control for durations attached. -/
def tenSeconds : Controlled .duration .quTime where
  entity := { raw := 10000000, quantiser_ := defaultGridFallback : QuTime }
  isArmed := true
  listeners_ := [1]

/-- A duration of one second. -/
def oneSecond : Controlled .duration .duration where
  entity := (1000000 : gavl_time_t)
  isArmed := false
  listeners_ := []

/-- Neither is the value shown to the listeners in all cases, since a length is not imposed onto a
point in time; nor does an adjustment by two seconds back keep a duration of one second valid. -/
theorem not_run_keeps_valid :
    (¬ ∀ (ti : TimeType) (k tar : Target) (place : Place k tar) (sys : Controlled ti k)
      (events : List (ControlEvent ti k)), (∀ event ∈ events, event.Valid) → k.Valid sys.entity →
      ∀ entry ∈ sys.trace 64 place events, ∀ notice ∈ entry.2.2.notified,
        Shows ti notice.2 tar (place.get entry.2.2.after.entity)) ∧
    ¬ ∀ (ti : TimeType) (k tar : Target) (place : Place k tar) (sys : Controlled ti k)
      (events : List (ControlEvent ti k)), (∀ event ∈ events, event.Valid) → k.Valid sys.entity →
      ∀ entry ∈ sys.trace 64 place events, k.Valid entry.2.2.after.entity := by
  constructor
  · intro h
    have hshown := h .duration .quTime .quTime .self tenSeconds [.setVal (5000000 : gavl_time_t)]
      (by rw [forall_mem_singleton]; exact show InDurationRange 5000000 by decide)
      (show InTimeRange 10000000 by decide) _ (mem_singleton_self _) (1, durationNil)
      (mem_singleton_self _)
    change (0 : Int64).toInt = |(QuTime.aligned ⟨10000000, defaultGridFallback⟩).raw.toInt| at hshown
    exact absurd hshown (by decide +kernel)
  · intro h
    have hvalid := h .duration .duration .duration .self oneSecond [.accept .self (.adjust (-2000000))]
      (by rw [forall_mem_singleton]; trivial) (show InDurationRange 1000000 by decide) _
      (mem_singleton_self _)
    change InDurationRange (1000000 + -2000000) at hvalid
    exact absurd hvalid (by decide)

end Controlled

end Lumiera.Lib.RawTime
