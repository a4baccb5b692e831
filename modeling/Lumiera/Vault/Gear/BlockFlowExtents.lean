import Mathlib.Data.Rat.Floor
import Lumiera.Lib.Time.TimeValue
import Lumiera.Vault.Mem.ExtentFamily

/-! # The allocation scheme on its extents (`vault/gear/block-flow.hpp`)

While the module on the scheduler's memory takes the active Epochs as a list, and leaves the
regulation of their spacing open, here the allocation scheme is built upon the `ExtentFamily`: an
Epoch is an extent whose first slot holds the `EpochGate`, with the deadline and the next free slot;
handles are positions within the cyclic pool, which get out of sync when the pool grows, and the
epoch step is regulated by load. Numbers of type `double` are exact rationals.

Times are micro ticks. A time value is confined to the valid time range whenever it is built from a
raw number, and this happens each time a deadline is *read* from the gate (`activity::Instant`).

The operations yield `none` when an assertion fails, or where the behaviour is undefined. -/

namespace Lumiera.Vault.Gear.Extents

open Lumiera.Vault.Mem (ExtentFamily)

/-- Limit for maximum number of blocks allowed in Epoch expansion. -/
def BLOCK_EXPAND_SAFETY_LIMIT : Int := 3000

/-- Micro ticks per second (`TimeValue::SCALE`). -/
def SCALE : Int := 1000000

/-- Explicit limit of the allowed time range (`TimeValue::limitedTime`). -/
def limitedTime (raw : Int) : Int := Lib.Time.symmetricLimit raw Lib.Time.MAX

/-- Frames per second, as fraction. -/
structure FrameRate where
  num : Nat
  denom : Nat
  deriving DecidableEq, Repr

/-! ## Parametrisation -/

/-- **Parameters of the memory management scheme.** The two functions which are left open are computed
by library functions of limited precision; the conditions hold for the configurations in use. -/
structure Config where
  EPOCH_SIZ : Nat
  /-- `_raw(DUTY_CYCLE)` -/
  DUTY_CYCLE : Int
  INITIAL_STREAMS : Nat
  TARGET_FILL : ℚ
  BOOST_FACTOR : ℚ
  DAMP_THRESHOLD : ℚ
  ACTIVITIES_PER_FRAME : Nat
  REFERENCE_FPS : Nat
  OVERLOAD_LIMIT : Nat
  /-- `pow(BOOST_FACTOR, 5.0/EPOCH_SIZ)` -/
  boostFactorOverflow : ℚ
  /-- `framesPerEpoch() / currFps` in micro ticks, for the frame rate of an epoch step and an
  additional frame rate; `none` when a fraction can not be represented. -/
  adaptedSpacing : Int → FrameRate → Option Int
  /-- `sizeof(Extent)` -/
  sizeofExtent : Nat

namespace Config

variable (conf : Config)

def framesPerEpoch : Nat := conf.EPOCH_SIZ / conf.ACTIVITIES_PER_FRAME

def initialFrameRate : Nat := conf.INITIAL_STREAMS * conf.REFERENCE_FPS

def initialEpochStep : Int :=
  |limitedTime ((conf.framesPerEpoch : Int) * SCALE / (conf.initialFrameRate : Int))|

/-- Reserve allocation headroom for two duty cycles. -/
def initialEpochCnt : Nat := Nat.max (2 * conf.DUTY_CYCLE / conf.initialEpochStep).toNat 2

def averageEpochs : Nat := Nat.max conf.initialEpochCnt 6

/-- Prevent stalling Epoch progression when reaching saturation. -/
def timeStep_cutOff : Int := |limitedTime (conf.initialEpochStep / (conf.OVERLOAD_LIMIT : Int))|

/-- The conditions on the parameters. -/
structure Sound : Prop where
  usable : 1 < conf.EPOCH_SIZ
  cutOff_pos : 0 < conf.timeStep_cutOff
  cutOff_le : conf.timeStep_cutOff ≤ conf.initialEpochStep
  fill_pos : 0 < conf.TARGET_FILL
  boost_pos : 0 < conf.BOOST_FACTOR
  threshold_pos : 0 < conf.DAMP_THRESHOLD
  overflow_ge : 1 / 2 ≤ conf.boostFactorOverflow

/-- `framesPerEpoch / (framesPerEpoch/step + fps)`, truncated to micro ticks. -/
def exactSpacing (framesPerEpoch : Nat) (step : Int) (fps : FrameRate) : Option Int :=
  let currFps : ℚ := (framesPerEpoch : ℚ) * SCALE / step + (fps.num : ℚ) / fps.denom
  if currFps ≤ 0 then none else some (Rat.floor ((framesPerEpoch : ℚ) / currFps * SCALE))

/-- `blockFlow::DefaultConfig` -/
def default : Config where
  EPOCH_SIZ := 100
  DUTY_CYCLE := SCALE
  INITIAL_STREAMS := 2
  TARGET_FILL := 9 / 10
  BOOST_FACTOR := 85 / 100
  DAMP_THRESHOLD := 8 / 100
  ACTIVITIES_PER_FRAME := 10
  REFERENCE_FPS := 25
  OVERLOAD_LIMIT := 60
  boostFactorOverflow := 4467151904533039 / 4503599627370496
  adaptedSpacing := exactSpacing 10
  sizeofExtent := 4000

end Config

/-! ## Epochs -/

/-- **The gate in the first slot** of an Epoch. The `next` usable slot is the last storage slot at
first, and is decremented until there is only the gate itself left. -/
structure EpochGate where
  rest : Int
  /-- raw value of the `Instant` -/
  dead : Int
  next : Nat
  deriving DecidableEq, Repr

namespace EpochGate

variable (gate : EpochGate)

/-- A newly constructed gate (`EpochGate()`), with the deadline assigned to it (`Epoch::setup`). -/
def setup (EPOCH_SIZ : Nat) (deadline : Int) : EpochGate := ⟨0, deadline, EPOCH_SIZ - 1⟩

/-- The deadline of the Epoch, as it is read back. -/
def deadline : Int := limitedTime gate.dead

def isHold : Bool := gate.rest > 0

def isDead (now : Int) : Bool := gate.deadline ≤ now

def isAlive (deadline : Int) : Bool := gate.isHold || !gate.isDead deadline

def filledSlots (EPOCH_SIZ : Nat) : Nat := EPOCH_SIZ - 1 - gate.next

def hasFreeSlot : Bool := gate.next > 0

/-- Hand out the next slot, which is required to be free. -/
def claimNextSlot : Option (Nat × EpochGate) :=
  if gate.hasFreeSlot then some (gate.next, { gate with next := gate.next - 1 }) else none

/-- The filled part of the usable slots. -/
def getFillFactor (EPOCH_SIZ : Nat) : ℚ := (gate.filledSlots EPOCH_SIZ : ℚ) / (EPOCH_SIZ - 1 : Nat)

end EpochGate

/-! ## Iteration over Epochs -/

/-- `StorageAdaptor`: an index position, together with the address of the Epoch found there. -/
structure EpochIter where
  index : Nat
  curr_ : Option Nat
  deriving DecidableEq, Repr

namespace EpochIter

/-- Resolve the address at an index position; there is none at the end (`accessEpoch`). -/
def accessEpoch (alloc : ExtentFamily) (index : Nat) : Option EpochIter :=
  if alloc.checkPoint index then (alloc.access index).map fun epoch => ⟨index, some epoch⟩
  else some ⟨index, none⟩

/-- Advance, after getting back into sync with the pool. -/
def iterNext (alloc : ExtentFamily) (it : EpochIter) : Option EpochIter :=
  match it.curr_ with
  | none => none
  | some curr =>
    match alloc.validatePos it.index curr with
    | none => none
    | some index => accessEpoch alloc (alloc.iterNext index)

end EpochIter

/-! ## State -/

/-- Exceptions: the expansion exceeds the safety limit, there is no memory for further extents, or a
fraction can not be represented. -/
inductive FlowError
  | capacity
  | outOfMemory
  | badRational
  deriving DecidableEq, Repr

/-- **The allocation scheme.** The `storage` maps the address of an extent to the gate in its first
slot, which is not initialised prior to setting up an Epoch there. -/
structure BlockFlow where
  alloc_ : ExtentFamily
  storage : Nat → EpochGate
  epochStep_ : Int
  pastDeadline_ : Int
  /-- the handles given to clients -/
  handles : List EpochIter

namespace BlockFlow

variable (conf : Config) (flow : BlockFlow)

/-- A new allocation scheme; whatever happens to be in the memory is arbitrary. -/
def initial (uninitialised : Nat → EpochGate) : BlockFlow where
  alloc_ := .initial conf.sizeofExtent conf.initialEpochCnt
  storage := uninitialised
  epochStep_ := conf.initialEpochStep
  pastDeadline_ := Lib.Time.ANYTIME
  handles := []

/-- Change the gate of one Epoch. -/
def withGate (epoch : Nat) (gate : EpochGate) : BlockFlow :=
  { flow with storage := fun e => if e = epoch then gate else flow.storage e }

/-- Change the epoch step. -/
def withStep (epochStep : Int) : BlockFlow := { flow with epochStep_ := epochStep }

/-- Use the extent at this index as Epoch (`Epoch::setup`). -/
def setup (index : Nat) (deadline : Int) : Option BlockFlow :=
  (flow.alloc_.access index).map fun epoch => flow.withGate epoch (.setup conf.EPOCH_SIZ deadline)

/-- The gate of the oldest Epoch, required to exist. -/
def firstEpoch : Option EpochGate :=
  if flow.alloc_.empty then none else (flow.alloc_.access flow.alloc_.start_).map flow.storage

/-- The gate of the latest Epoch, required to exist. -/
def lastEpoch : Option EpochGate :=
  if flow.alloc_.empty then none
  else flow.alloc_.last.bind fun index => (flow.alloc_.access index).map flow.storage

/-! ## Self-regulation -/

/-- `Duration{epochStep_}` is always positive. -/
def getEpochStep : Int := |Lib.Time.symmetricLimit flow.epochStep_ Lib.Time.durationMax|

def adjustEpochStep (factor : ℚ) : BlockFlow :=
  flow.withStep (limitedTime (Rat.floor ((flow.epochStep_ : ℚ) * factor)))

/-- Increase capacity as consequence of exhausting an Epoch, down to the cut-off. -/
def markEpochOverflow : BlockFlow :=
  if flow.epochStep_ > conf.timeStep_cutOff then flow.adjustEpochStep conf.boostFactorOverflow
  else flow

/-- The fill level relative to the goal, limited for almost empty Epochs. -/
def adjust (conf : Config) (fillFactor : ℚ) : ℚ :=
  let fillFactor := fillFactor / conf.TARGET_FILL
  if fillFactor > conf.DAMP_THRESHOLD then fillFactor
  else
    let f := 1 - fillFactor / conf.DAMP_THRESHOLD
    f * conf.BOOST_FACTOR + (1 - f) * fillFactor

/-- Damped adjustment towards the ideal size, given the actual length and fill of a past Epoch. There
is no result when dividing by zero. -/
def markEpochUnderflow (actualLen : Int) (fillFactor : ℚ) : Option BlockFlow :=
  if flow.epochStep_ = 0 then none
  else
    let contribution := (actualLen : ℚ) / flow.epochStep_ / adjust conf fillFactor
    let N : ℚ := conf.averageEpochs
    some (flow.adjustEpochStep ((contribution + N - 1) / N))

/-- Adapt the spacing in advance. -/
def announceAdditionalFlow (additionalFps : FrameRate) : Except FlowError Unit × BlockFlow :=
  match conf.adaptedSpacing flow.getEpochStep additionalFps with
  | none => (.error .badRational, flow)
  | some spacing => (.ok (), flow.withStep (max (limitedTime spacing) conf.timeStep_cutOff))

/-- Memorise the deadline of the oldest Epoch, and return the previous one. -/
def updatePastDeadline (newDeadline : Int) : Int × BlockFlow :=
  let previous :=
    if flow.pastDeadline_ = Lib.Time.ANYTIME then newDeadline - flow.epochStep_
    else flow.pastDeadline_
  (previous, { flow with pastDeadline_ := newDeadline })

/-! ## Allocation -/

/-- The loop to claim a slot (`claimSlot`): while there is no free slot at the current position, shift
to the following Epoch, possibly allocate. The result is the address of the slot. -/
def claimSlot (memory : Bool) :
    Nat → BlockFlow → EpochIter → Option (Except FlowError (Nat × Nat) × EpochIter × BlockFlow)
  | 0, _, _ => none
  | fuel + 1, flow, epoch_ =>
    match epoch_.curr_ with
    | none =>
      match flow.lastEpoch with
      | none => none
      | some last =>
        if (flow.alloc_.openNew 1 memory).isNone then
          some (.error .outOfMemory, epoch_, flow)
        else
          match flow.alloc_.expandAlloc epoch_.index 1 memory with
          | none => none
          | some (index, alloc) =>
            match EpochIter.accessEpoch alloc index with
            | none => none
            | some epoch_ =>
              if epoch_.curr_.isNone then none
              else
                match setup conf { flow with alloc_ := alloc } index
                    (last.deadline + flow.getEpochStep) with
                | none => none
                | some flow => claimSlot memory fuel flow epoch_
    | some curr =>
      match (flow.storage curr).claimNextSlot with
      | some (slot, gate) => some (.ok (curr, slot), epoch_, flow.withGate curr gate)
      | none =>
        match epoch_.iterNext flow.alloc_ with
        | none => none
        | some epoch_ => claimSlot memory fuel (flow.markEpochOverflow conf) epoch_

/-- Allocate an Activity record through a handle. -/
def create (handle : Nat) (memory : Bool) : Option (Except FlowError (Nat × Nat) × BlockFlow) :=
  match flow.handles[handle]? with
  | none => none
  | some epoch_ =>
    (claimSlot conf memory (flow.alloc_.slotCnt + 2) flow epoch_).map
      fun (result, epoch_, flow) => (result, { flow with handles := flow.handles.set handle epoch_ })

/-- Give out a handle for the Epoch at this position. -/
def giveHandle (index : Nat) : Option (Except FlowError Nat × BlockFlow) :=
  (EpochIter.accessEpoch flow.alloc_ index).map fun epoch_ =>
    (.ok flow.handles.length, { flow with handles := flow.handles ++ [epoch_] })

/-- The loop to set up the new Epochs of the grid. -/
def setupGrid (deadline : Int) :
    Nat → BlockFlow → EpochIter → Int → Option (Except FlowError Nat × BlockFlow)
  | 0, _, _, _ => none
  | requiredNew + 1, flow, nextEpoch, lastDeadline =>
    if nextEpoch.curr_.isNone then none
    else
      let lastDeadline := lastDeadline + flow.epochStep_
      match flow.setup conf nextEpoch.index lastDeadline with
      | none => none
      | some flow =>
        if deadline ≤ lastDeadline then
          if requiredNew = 0 then flow.giveHandle nextEpoch.index else none
        else
          match nextEpoch.iterNext flow.alloc_ with
          | none => none
          | some nextEpoch => setupGrid deadline requiredNew flow nextEpoch lastDeadline

/-- Number of new Epochs to cover the distance; the first division is unsafe, and its result is
checked as unsigned number. -/
def requiredNew (distance : Int) : Option (Except FlowError Nat) :=
  if flow.epochStep_ = 0 then none
  else
    let requiredNew := distance.tdiv flow.epochStep_
    if requiredNew < 0 ∨ requiredNew > BLOCK_EXPAND_SAFETY_LIMIT then some (.error .capacity)
    else if distance.tmod flow.epochStep_ > 0 then some (.ok (requiredNew + 1).toNat)
    else some (.ok requiredNew.toNat)

/-- Create a grid of new Epochs up to the requested point. -/
def expandGrid (deadline lastDeadline : Int) (memory : Bool) :
    Option (Except FlowError Nat × BlockFlow) :=
  match flow.requiredNew (deadline - lastDeadline) with
  | none => none
  | some (.error raised) => some (.error raised, flow)
  | some (.ok requiredNew) =>
    if (flow.alloc_.openNew requiredNew memory).isNone then some (.error .outOfMemory, flow)
    else
      match flow.alloc_.expandAlloc flow.alloc_.after_ requiredNew memory with
      | none => none
      | some (index, alloc) =>
        match EpochIter.accessEpoch alloc index with
        | none => none
        | some nextEpoch =>
          setupGrid conf deadline requiredNew { flow with alloc_ := alloc } nextEpoch lastDeadline

/-- The loop to find an established Epoch. -/
def findEpoch (deadline : Int) : Nat → EpochIter → Option (Except FlowError Nat × BlockFlow)
  | 0, _ => none
  | fuel + 1, epochIt =>
    match epochIt.curr_ with
    | none => none
    | some curr =>
      if (flow.storage curr).deadline ≥ deadline then flow.giveHandle epochIt.index
      else
        match epochIt.iterNext flow.alloc_ with
        | none => none
        | some epochIt => findEpoch deadline fuel epochIt

/-- **`until`**: initiate allocations for activities to happen until some deadline. -/
def «until» (deadline : Int) (memory : Bool) : Option (Except FlowError Nat × BlockFlow) :=
  if flow.alloc_.empty then
    match flow.alloc_.openNew 1 memory with
    | none => some (.error .outOfMemory, flow)
    | some alloc =>
      match setup conf { flow with alloc_ := alloc } alloc.start_ (deadline + flow.epochStep_) with
      | none => none
      | some flow => flow.giveHandle flow.alloc_.start_
  else
    match flow.firstEpoch, flow.lastEpoch with
    | some firstEpoch, some lastEpoch =>
      if firstEpoch.deadline ≥ deadline then flow.giveHandle flow.alloc_.start_
      else if lastEpoch.deadline < deadline then
        flow.expandGrid conf deadline lastEpoch.deadline memory
      else
        match EpochIter.accessEpoch flow.alloc_ flow.alloc_.start_ with
        | none => none
        | some epochIt => flow.findEpoch deadline (flow.alloc_.slotCnt + 1) epochIt
    | _, _ => none

/-! ## Clean-up -/

/-- The loop to count the Epochs to discard, with the regulation based on each of them. -/
def discardEpochs (deadline : Int) : Nat → BlockFlow → EpochIter → Option (Nat × BlockFlow)
  | 0, _, _ => none
  | fuel + 1, flow, epoch =>
    match epoch.curr_ with
    | none => some (0, flow)
    | some curr =>
      let gate := flow.storage curr
      if gate.isAlive deadline then some (0, flow)
      else
        let currDeadline := gate.deadline
        let (previous, flow) := flow.updatePastDeadline currDeadline
        match flow.markEpochUnderflow conf (currDeadline - previous)
            (gate.getFillFactor conf.EPOCH_SIZ) with
        | none => none
        | some flow =>
          match epoch.iterNext flow.alloc_ with
          | none => none
          | some epoch =>
            (discardEpochs deadline fuel flow epoch).map fun (cnt, flow) => (cnt + 1, flow)

/-- **`discardBefore`**: clean-up all storage related to activities before the given deadline. -/
def discardBefore (deadline : Int) : Option BlockFlow :=
  if flow.alloc_.empty then some flow
  else
    match flow.firstEpoch with
    | none => none
    | some firstEpoch =>
      if firstEpoch.deadline > deadline then some flow
      else
        match EpochIter.accessEpoch flow.alloc_ flow.alloc_.start_ with
        | none => none
        | some epoch =>
          match discardEpochs conf deadline (flow.alloc_.slotCnt + 1) flow epoch with
          | none => none
          | some (toDiscard, flow) =>
            (flow.alloc_.dropOld toDiscard).map fun alloc => { flow with alloc_ := alloc }

/-! ## Runs -/

/-- The calls of the clients, each with the `memory` being granted or not in case the pool has to be
grown; moreover IO operations may be pending on some Epoch. -/
inductive Call
  | until (deadline : Int) (memory : Bool)
  | create (handle : Nat) (memory : Bool)
  | discardBefore (deadline : Int)
  | announceAdditionalFlow (additionalFps : FrameRate)
  | ioPending (epoch : Nat) (rest : Int)
  deriving DecidableEq, Repr

/-- The outcome of a call. -/
inductive Outcome
  | handle (result : Except FlowError Nat)
  | slot (result : Except FlowError (Nat × Nat))
  | done (result : Except FlowError Unit)
  deriving Repr

/-- Perform a call, either to its end or up to the exception it raises. -/
def perform (flow : BlockFlow) : Call → Option (Outcome × BlockFlow)
  | .until deadline memory =>
    (flow.until conf deadline memory).map fun (result, flow) => (.handle result, flow)
  | .create handle memory =>
    (flow.create conf handle memory).map fun (result, flow) => (.slot result, flow)
  | .discardBefore deadline => (flow.discardBefore conf deadline).map fun flow => (.done (.ok ()), flow)
  | .announceAdditionalFlow additionalFps =>
    let (result, flow) := flow.announceAdditionalFlow conf additionalFps
    some (.done result, flow)
  | .ioPending epoch rest =>
    some (.done (.ok ()), flow.withGate epoch { flow.storage epoch with rest := rest })

/-- The runs of an allocation scheme. -/
def machine : Machine BlockFlow Call where
  init flow := ∃ uninitialised, flow = initial conf uninitialised
  step flow call flow' := ∃ outcome, perform conf flow call = some (outcome, flow')

end BlockFlow

end Lumiera.Vault.Gear.Extents
