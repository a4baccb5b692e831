import Lumiera.Lib.Time.FrameQuantisation

/-! # Mutation messages (`lib/time/mutation.hpp`, `lib/time/mutation.cpp`)

Durations, time spans and quantised times may be changed by a message. The message sets a new raw
value into the target, or adds an offset to the raw value found there; neither goes through the
constructors which limit time values. -/

namespace Lumiera.Lib.RawTime

/-! ## Time entities -/

/-- `PQuant`, the grid a quantised time refers to. -/
abbrev PQuant := FixedFrameQuantiser

/-- `Quantiser::materialise` -/
def FixedFrameQuantiser.materialise (grid : FixedFrameQuantiser) (raw : gavl_time_t) : gavl_time_t :=
    grid.timeOf (grid.gridPoint raw)

/-- `TimeSpan`: a start point, and the length. -/
structure TimeSpan where
  start : gavl_time_t
  dur_ : gavl_time_t
  deriving DecidableEq

/-- `QuTime`: the precise value, which is aligned to the grid when it is used. -/
structure QuTime where
  raw : gavl_time_t
  quantiser_ : PQuant

/-- The time entities which can be changed. -/
inductive Target
  | duration
  | timeSpan
  | quTime
  deriving DecidableEq

/-- The values of such an entity. -/
abbrev Target.Val : Target → Type
  | duration => gavl_time_t
  | timeSpan => TimeSpan
  | quTime => QuTime

/-- The time value each entity is based on: the start point, in case of a time span. -/
def Target.time : (tar : Target) → tar.Val → gavl_time_t
  | .duration, dur => dur
  | .timeSpan, span => span.start
  | .quTime, qu => qu.raw

/-- This time value is overwritten. -/
def Target.assign : (tar : Target) → tar.Val → gavl_time_t → tar.Val
  | .duration, _, t => t
  | .timeSpan, span, t => { span with start := t }
  | .quTime, qu, t => { qu with raw := t }

/-- Part of an entity, which can be changed on its own: `TimeSpan::duration`. -/
inductive Place : Target → Target → Type
  | self {k : Target} : Place k k
  | length : Place .timeSpan .duration

namespace Place

def get {k tar : Target} : Place k tar → k.Val → tar.Val
  | self, val => val
  | length, span => TimeSpan.dur_ span

def set {k tar : Target} : Place k tar → k.Val → tar.Val → k.Val
  | self, _, val => val
  | length, span, dur => { (span : TimeSpan) with dur_ := dur }

@[simp] theorem get_set {k tar : Target} (place : Place k tar) (val : k.Val) (part : tar.Val) :
    place.get (place.set val part) = part := by
  cases place <;> rfl

@[simp] theorem set_get {k tar : Target} (place : Place k tar) (val : k.Val) :
    place.set val (place.get val) = val := by
  cases place <;> rfl

end Place

/-! ## Changes -/

/-- The seconds, as a rational number (`FSecs`). -/
def wholeSeconds (steps : Int32) : Rational where
  numerator := steps.toInt64
  denominator := 1
  denominator_pos := by decide
  reduced := by
    have hone : (1 : Int64).toInt = 1 := rfl
    rw [hone, Int.gcd_one_right]

/-- What can be imposed onto a time value. -/
inductive Change
  | value (valueToSet : gavl_time_t)
  | offset (offset : gavl_time_t)
  | steps (steps : Int32)

/-- `Mutation::imposeChange`. Steps are seconds, except for a quantised time: here they are steps on
its own grid. Floating point numbers have this number of significant bits. -/
def imposeChange (bits : ℕ) : (tar : Target) → tar.Val → Change → tar.Val
  | tar, target, .value valueToSet => tar.assign target valueToSet
  | tar, target, .offset offset => tar.assign target (tar.time target + offset)
  | .quTime, target, .steps steps =>
    let grid := target.quantiser_
    let originalGridPoint := grid.gridPoint target.raw
    let adjustedGridPoint := originalGridPoint + steps.toInt64
    Target.quTime.assign target (grid.timeOf adjustedGridPoint)
  | tar, target, .steps steps =>
    tar.assign target (tar.time target + limitedTime (rationalToTime bits (wholeSeconds steps)))

/-! ## Messages -/

/-- An error, with its ID. -/
structure TimeError where
  desc : String
  id : String
  deriving DecidableEq

def INVALID_MUTATION : String := "LUMIERA_ERROR_INVALID_MUTATION"

/-- `SetNewStartTimeMutation::change (Duration&)` -/
def noStartPoint : TimeError :=
  ⟨"mutating the start point of a pure Duration doesn't make sense", INVALID_MUTATION⟩

/-- `SetNewDuration::change (QuTime&)` -/
def noDuration : TimeError :=
  ⟨"mutating the duration of a (quantised) time point doesn't make sense", INVALID_MUTATION⟩

/-- `Mutation`, by its implementations. -/
inductive Mutation
  | setNewStartTime (newTime_ : gavl_time_t)
  | setNewDuration (changedDuration_ : gavl_time_t)
  | imposeOffset (adjustment_ : gavl_time_t)
  | naturalNudge (steps_ : Int32)

namespace Mutation

variable (bits : ℕ)

/-- `Mutation::change`: what becomes of the target, and the error raised. -/
def change : Mutation → (tar : Target) → tar.Val → tar.Val × Option TimeError
  | setNewStartTime _, .duration, target => (target, some noStartPoint)
  | setNewStartTime newTime, tar, target => (imposeChange bits tar target (.value newTime), none)
  | setNewDuration changed, .duration, target =>
    (imposeChange bits .duration target (.value changed), none)
  | setNewDuration changed, .timeSpan, target =>
    (Place.length.set target (imposeChange bits .duration (Place.length.get target) (.value changed)),
      none)
  | setNewDuration _, .quTime, target => (target, some noDuration)
  | imposeOffset adjustment, tar, target => (imposeChange bits tar target (.offset adjustment), none)
  | naturalNudge steps, tar, target => (imposeChange bits tar target (.steps steps), none)

/-! ### The factory functions -/

def adjust (change : gavl_time_t) : Mutation := imposeOffset change

/-- Steps on a grid which depends on the target. -/
def nudge (adjustment : Int32) : Mutation := naturalNudge adjustment

end Mutation

/-! ## Controls attached to time entities (`lib/time/control.hpp`, `lib/time/control-policy.hpp`)

A control is attached to a time entity by sending it as a message. Values, offsets and nudges fed to
the control are imposed onto this target, and the listeners are notified, in terms of the type of
value the control is built for. What happens depends on this type and on the type of the target. -/

/-- The interface types of a control. -/
inductive TimeType
  | timeValue
  | time
  | duration
  | timeSpan
  | quTime
  deriving DecidableEq

/-- The values of such a type. -/
abbrev TimeType.Val : TimeType → Type
  | timeValue => gavl_time_t
  | time => gavl_time_t
  | duration => gavl_time_t
  | timeSpan => TimeSpan
  | quTime => QuTime

/-- `Duration::NIL` -/
def durationNil : gavl_time_t := 0

/-- `getDefaultGridFallback`: a grid with one frame in each second. -/
def defaultGridFallback : PQuant where
  origin_ := 0
  raster_ := 1000000
  origin_range := by decide
  raster_pos := by decide
  raster_le := by decide

/-! ## Notification values -/

/-- `maybeMaterialise`: quantised times are aligned to their grid. -/
def QuTime.aligned (alignedTime : QuTime) : QuTime :=
  { alignedTime with raw := alignedTime.quantiser_.materialise alignedTime.raw }

/-- `maybeMaterialise`, for a target. -/
def Target.maybeMaterialise : (tar : Target) → tar.Val → tar.Val
  | .quTime, qu => qu.aligned
  | .duration, dur => dur
  | .timeSpan, span => span

/-- The time value imposed as change (`maybeMaterialise`). -/
def TimeType.changeTime : (ti : TimeType) → ti.Val → gavl_time_t
  | .timeValue, t => t
  | .time, t => t
  | .duration, dur => dur
  | .timeSpan, span => span.start
  | .quTime, qu => qu.aligned.raw

/-- `Builder::buildChangedValue`: the target, converted to the interface type. -/
def buildChangedValue : (ti : TimeType) → (tar : Target) → tar.Val → ti.Val
  | .timeValue, tar, target => tar.time target
  | .time, tar, target => tar.time target
  | .duration, .duration, dur => dur
  | .duration, .timeSpan, span => span.dur_
  | .duration, .quTime, qu => durationOf (symmetricLimit qu.raw durationMax)
  | .timeSpan, .timeSpan, span => span
  | .timeSpan, .duration, dur => { start := 0, dur_ := dur : TimeSpan }
  | .timeSpan, .quTime, qu => { start := qu.raw, dur_ := durationNil : TimeSpan }
  | .quTime, .quTime, qu => qu
  | .quTime, .duration, dur => { raw := dur, quantiser_ := defaultGridFallback : QuTime }
  | .quTime, .timeSpan, span => { raw := span.start, quantiser_ := defaultGridFallback : QuTime }

/-! ## Linking a target -/

variable (bits : ℕ)

/-- `Link::processValueChange`, the standard case. -/
def processValueChange (ti : TimeType) (tar : Target) (target : tar.Val) (change : Change) :
    tar.Val × ti.Val :=
  let changed := imposeChange bits tar target change
  (changed, buildChangedValue ti tar (tar.maybeMaterialise changed))

/-- `Link::useLengthAsChange` -/
def useLengthAsChange (ti : TimeType) (tar : Target) (target : tar.Val) (change : TimeSpan) :
    tar.Val × ti.Val :=
  processValueChange bits ti tar target (.value change.dur_)

/-- `Link::mutateLength` -/
def mutateLength (ti : TimeType) (target : TimeSpan) (change : gavl_time_t) : TimeSpan × ti.Val :=
  let changed := { target with dur_ := imposeChange bits .duration target.dur_ (.value change) }
  (changed, buildChangedValue ti .timeSpan changed)

/-- `Link::mutateTimeSpan` -/
def mutateTimeSpan (target change : TimeSpan) : TimeSpan × TimeSpan :=
  let changed := { target with dur_ := imposeChange bits .duration target.dur_ (.value change.dur_) }
  let changed := imposeChange bits .timeSpan changed (.value change.start)
  (changed, buildChangedValue .timeSpan .timeSpan changed)

/-- `Link::dontChange` -/
def dontChange (ti : TimeType) (tar : Target) (target : tar.Val) : tar.Val × ti.Val :=
  (target, buildChangedValue ti tar target)

/-- `Policy::buildChangeHandler`, for values of the interface type. -/
def setVal : (ti : TimeType) → (tar : Target) → tar.Val → ti.Val → tar.Val × ti.Val
  -- a length can be changed by another length only
  | .duration, .duration, target, change => processValueChange bits .duration .duration target (.value change)
  | .timeSpan, .duration, target, change => useLengthAsChange bits .timeSpan .duration target change
  | ti, .duration, target, _ => dontChange ti .duration target
  | .duration, .timeSpan, target, change => mutateLength bits .duration target change
  | .timeSpan, .timeSpan, target, change => mutateTimeSpan bits target change
  -- a length can not be used to change a point in time
  | .duration, .quTime, target, _ => (target, durationNil)
  | ti, tar, target, change => processValueChange bits ti tar target (.value (ti.changeTime change))

/-- `Policy::buildChangeHandler`, for offsets. -/
def offsetBy (ti : TimeType) (tar : Target) (target : tar.Val) (change : gavl_time_t) : tar.Val × ti.Val :=
    processValueChange bits ti tar target (.offset change)

/-- `Policy::buildChangeHandler`, for a number of steps. -/
def nudgeBy (ti : TimeType) (tar : Target) (target : tar.Val) (change : Int32) : tar.Val × ti.Val :=
    processValueChange bits ti tar target (.steps change)

/-! ## The control in use -/

/-- `Control::ensure_isArmed` -/
def unconnected : TimeError :=
  ⟨"feeding time/value change while not (yet) connected to any target to change",
    "LUMIERA_ERROR_UNCONNECTED"⟩

/-- A time entity, and a control which may be attached to it, or to a part of it. -/
structure Controlled (ti : TimeType) (k : Target) where
  entity : k.Val
  isArmed : Bool
  listeners_ : List ℕ

/-- What can be done with the entity and with the control. -/
inductive ControlEvent (ti : TimeType) (k : Target)
  /-- A message is sent to the entity, or to a part of it. -/
  | accept {tar : Target} (place : Place k tar) (m : Mutation)
  | attach
  | disconnect
  | connectChangeNotification (toNotify : ℕ)
  | setVal (newValue : ti.Val)
  | offset (adjustment : gavl_time_t)
  | nudge (offset_by_steps : Int32)

/-- What an event leads to: the listeners notified, with the value passed to them. -/
structure Outcome (ti : TimeType) (k : Target) where
  after : Controlled ti k
  notified : List (ℕ × ti.Val)
  raised : Option TimeError

namespace Controlled

variable {ti : TimeType} {k tar : Target}

/-- `Propagator`: the value is passed to all the listeners. -/
def publish (sys : Controlled ti k) (changedVal : ti.Val) : List (ℕ × ti.Val) :=
  sys.listeners_.map fun listener => (listener, changedVal)

/-- `Control::operator()`: a change is fed to the target connected. -/
def feed (place : Place k tar) (sys : Controlled ti k) (change : tar.Val → tar.Val × ti.Val) : Outcome ti k :=
  if sys.isArmed then
    let result := change (place.get sys.entity)
    ⟨{ sys with entity := place.set sys.entity result.1 }, sys.publish result.2, none⟩
  else ⟨sys, [], some unconnected⟩

/-- `Control::connectChangeNotification`: an offset of zero yields the current value. -/
def connect (place : Place k tar) (sys : Controlled ti k) (toNotify : ℕ) : Outcome ti k :=
  if sys.isArmed then
    let result := offsetBy bits ti tar (place.get sys.entity) 0
    ⟨{ sys with entity := place.set sys.entity result.1, listeners_ := sys.listeners_ ++ [toNotify] },
      [(toNotify, result.2)], none⟩
  else ⟨{ sys with listeners_ := sys.listeners_ ++ [toNotify] }, [], none⟩

/-- One event. The control is attached at this place. -/
def step (place : Place k tar) (sys : Controlled ti k) : ControlEvent ti k → Outcome ti k
  | .accept at_ m =>
    let result := m.change bits _ (at_.get sys.entity)
    ⟨{ sys with entity := at_.set sys.entity result.1 }, [], result.2⟩
  | .attach => ⟨{ sys with isArmed := true }, [], none⟩
  | .disconnect => ⟨{ sys with isArmed := false, listeners_ := [] }, [], none⟩
  | .connectChangeNotification toNotify => sys.connect bits place toNotify
  | .setVal newValue => sys.feed place fun target => RawTime.setVal bits ti tar target newValue
  | .offset adjustment => sys.feed place fun target => offsetBy bits ti tar target adjustment
  | .nudge steps => sys.feed place fun target => nudgeBy bits ti tar target steps

/-- A sequence of events: each with the state it finds, and what it leads to. -/
def trace (place : Place k tar) :
    Controlled ti k → List (ControlEvent ti k) → List (Controlled ti k × ControlEvent ti k × Outcome ti k)
  | _, [] => []
  | sys, event :: events =>
    (sys, event, sys.step bits place event) :: trace place (sys.step bits place event).after events

end Controlled

end Lumiera.Lib.RawTime
