import Mathlib.Algebra.Order.Ring.Nat
import Mathlib.Logic.Function.Basic
import Lumiera.Base.Machine

/-! # SMPTE timecode (`lib/time/timecode.cpp`, `lib/time/digxel.hpp`)

A `SmpteTC` splits a frame count into hours, minutes, seconds and frames, together with a sign. Each of
these components is a `Digxel`: assigning a value invokes a *mutator*, which was bound to some time code
object on construction, and which wraps the value into the range of the component and carries the excess
over to the next one, by an assignment again. When the hours become negative, the orientation of the
whole time code is inverted.

A time code is an object with an identity, since the mutators refer to it; thus the model covers all time
codes existing, by number. The mutators of the different components are different functions, and each is
bound to an object when installed; since a mutator installed for some component is only ever copied to the
same component of another time code, it is determined by the number of the object it is bound to. Calculations
on `int` are checked: overflow is undefined. -/

namespace Lumiera.Lib.Time

/-- The components of a time code. -/
inductive Component where
  | hours
  | mins
  | secs
  | frames
  | sgn
  deriving DecidableEq, Repr

/-- A number element, and the object its mutator is bound to. -/
structure Digxel where
  value : Int
  mutator : Nat
  deriving DecidableEq, Repr

/-- A time code; `quantiser_` gives the time of a grid point. -/
structure SmpteTC where
  hours : Digxel
  mins : Digxel
  secs : Digxel
  frames : Digxel
  sgn : Digxel
  effectiveFramerate_ : Nat
  quantiser_ : Int → Int

/-- The number is within the range of an `int`. -/
def IsInt (n : Int) : Prop := -2 ^ 31 ≤ n ∧ n < 2 ^ 31

instance (n : Int) : Decidable (IsInt n) := inferInstanceAs (Decidable (_ ∧ _))

/-- The result of a calculation on `int`. -/
def int (n : Int) : Option Int := if IsInt n then some n else none

/-- Conversion of a frame count into an `int`. -/
def toInt32 (n : Int) : Int := Int.bmod n (2 ^ 32)

/-- Quotient and remainder, where the remainder is relative to the next lower multiple. -/
def floorwrap (num den : Int) : Int × Int :=
  let quot := num.tdiv den
  let rem := num.tmod den
  if decide (num < 0) ≠ decide (den < 0) ∧ rem ≠ 0 then (quot - 1, den - (-rem)) else (quot, rem)

namespace SmpteTC

variable (tc : SmpteTC)

def component : Component → Digxel
  | .hours => tc.hours
  | .mins => tc.mins
  | .secs => tc.secs
  | .frames => tc.frames
  | .sgn => tc.sgn

/-- Store the value of a component as it is. -/
def setValueRaw (comp : Component) (newVal : Int) : SmpteTC :=
  match comp with
  | .hours => { tc with hours := { tc.hours with value := newVal } }
  | .mins => { tc with mins := { tc.mins with value := newVal } }
  | .secs => { tc with secs := { tc.secs with value := newVal } }
  | .frames => { tc with frames := { tc.frames with value := newVal } }
  | .sgn => { tc with sgn := { tc.sgn with value := newVal } }

def getFps : Int := tc.effectiveFramerate_

/-- The frame count, without the sign. -/
def gridPoint : Int :=
  tc.frames.value + tc.secs.value * tc.getFps + tc.mins.value * tc.getFps * 60
    + tc.hours.value * tc.getFps * 60 * 60

/-- The signed frame count. -/
def total : Int := tc.sgn.value * tc.gridPoint

/-- The time denoted by the time code (`Smpte::evaluate`). -/
def value : Int := tc.quantiser_ tc.total

/-- Reset all components. -/
def clear : SmpteTC :=
  ((((tc.setValueRaw .frames 0).setValueRaw .secs 0).setValueRaw .mins 0).setValueRaw .hours 0)
    |>.setValueRaw .sgn 1

end SmpteTC

/-- All time code objects, by number. -/
abbrev TimeCodes := Nat → SmpteTC

/-- Store a component of an object as it is. -/
def TimeCodes.setValueRaw (w : TimeCodes) (thisTC : Nat) (comp : Component) (newVal : Int) : TimeCodes :=
  Function.update w thisTC ((w thisTC).setValueRaw comp newVal)

/-! ## Mutators

The functions below are given the assignment as a parameter, since they are mutually recursive with it. -/

section Mutators

variable (assign : TimeCodes → Nat → Component → Int → Option TimeCodes)

/-- **Flip the orientation** of the components, together with the sign. -/
def invertOrientation (w : TimeCodes) (thisTC : Nat) : Option TimeCodes :=
  let tc := w thisTC
  let fr := tc.getFps
  (int (fr - tc.frames.value)).bind fun f =>
  (int (60 - tc.secs.value)).bind fun s =>
  (int (60 - tc.mins.value)).bind fun m =>
  (int (-tc.hours.value)).bind fun h =>
  (assign w thisTC .sgn (-1 * tc.sgn.value)).bind fun w =>
  (int (if f < fr then s - 1 else s)).bind fun s =>
  (int (if f < fr then f else f - fr)).bind fun f =>
  (int (if s < 60 then m - 1 else m)).bind fun m =>
  (int (if s < 60 then s else s - 60)).bind fun s =>
  (int (if m < 60 then h - 1 else h)).bind fun h =>
  (int (if m < 60 then m else m - 60)).bind fun m =>
  -- invoking setters ensures normalisation
  (assign (w.setValueRaw thisTC .hours h) thisTC .mins m).bind fun w =>
  (assign w thisTC .secs s).bind fun w =>
  assign w thisTC .frames f

/-- Handle the limits of the range: flip the representation around the zero point. -/
def applyRangeLimitStrategy (w : TimeCodes) (thisTC : Nat) : Option TimeCodes :=
  if (w thisTC).hours.value < 0 then invertOrientation assign w thisTC else some w

def wrapFrames (w : TimeCodes) (thisTC : Nat) (rawFrames : Int) : Option TimeCodes :=
  let (quot, rem) := floorwrap rawFrames (w thisTC).getFps
  let w := w.setValueRaw thisTC .frames rem
  (int ((w thisTC).secs.value + quot)).bind fun n => assign w thisTC .secs n

def wrapSeconds (w : TimeCodes) (thisTC : Nat) (rawSecs : Int) : Option TimeCodes :=
  let (quot, rem) := floorwrap rawSecs 60
  let w := w.setValueRaw thisTC .secs rem
  (int ((w thisTC).mins.value + quot)).bind fun n => assign w thisTC .mins n

def wrapMinutes (w : TimeCodes) (thisTC : Nat) (rawMins : Int) : Option TimeCodes :=
  let (quot, rem) := floorwrap rawMins 60
  let w := w.setValueRaw thisTC .mins rem
  (int ((w thisTC).hours.value + quot)).bind fun n => assign w thisTC .hours n

def wrapHours (w : TimeCodes) (thisTC : Nat) (rawHours : Int) : Option TimeCodes :=
  applyRangeLimitStrategy assign (w.setValueRaw thisTC .hours rawHours) thisTC

/-- The sign is either positive or negative. -/
def storeSign (w : TimeCodes) (thisTC : Nat) (val : Int) : TimeCodes :=
  w.setValueRaw thisTC .sgn (if val < 0 then -1 else 1)

/-- The mutator of a component, bound to an object. -/
def mutate (w : TimeCodes) (thisTC : Nat) (comp : Component) (n : Int) : Option TimeCodes :=
  match comp with
  | .hours => wrapHours assign w thisTC n
  | .mins => wrapMinutes assign w thisTC n
  | .secs => wrapSeconds assign w thisTC n
  | .frames => wrapFrames assign w thisTC n
  | .sgn => some (storeSign w thisTC n)

end Mutators

/-- **Assign a value to a component** (`Digxel::operator=`), with the given depth of recursion. -/
def assign : Nat → TimeCodes → Nat → Component → Int → Option TimeCodes
  | 0, _, _, _, _ => none
  | fuel + 1, w, tc, comp, n =>
    let digxel := (w tc).component comp
    if n = digxel.value then some w
    else mutate (assign fuel) w digxel.mutator comp n

/-! ## Operations -/

/-- The digits of an object under construction, with the mutators bound to this object. -/
def setupComponentNormalisation (tc : Nat) (effectiveFramerate : Nat) (quantiser : Int → Int) :
    SmpteTC :=
  ⟨⟨0, tc⟩, ⟨0, tc⟩, ⟨0, tc⟩, ⟨0, tc⟩, ⟨1, tc⟩, effectiveFramerate, quantiser⟩

/-- What can be done with the time codes. -/
inductive Operation where
  | construct (effectiveFramerate : Nat) (quantiser : Int → Int) (gridPoint : Int)
  | copy (o : Nat)
  | assignFrom (tc o : Nat)
  | set (tc : Nat) (comp : Component) (n : Int)
  | increment (tc : Nat)
  | decrement (tc : Nat)
  | invert (tc : Nat)

/-- The time codes constructed so far; the others are not yet of interest. -/
structure Objects where
  cnt : Nat
  codes : TimeCodes

namespace Objects

variable (objs : Objects)

/-- Perform an operation, with the given depth of recursion. -/
def perform (fuel : Nat) : Operation → Option Objects
  | .construct effectiveFramerate quantiser gridPoint =>
    let tc := objs.cnt
    let fresh := setupComponentNormalisation tc effectiveFramerate quantiser
    if 0 < effectiveFramerate ∧ effectiveFramerate < 1000 then
      -- quantise the time and rebuild
      (assign fuel (Function.update objs.codes tc fresh.clear) tc .frames (toInt32 gridPoint)).map
        fun codes => ⟨objs.cnt + 1, codes⟩
    else none
  | .copy o =>
    -- the digits are copied, including the mutators, and replace those set up before
    if o < objs.cnt then
      some ⟨objs.cnt + 1, Function.update objs.codes objs.cnt (objs.codes o)⟩
    else none
  | .assignFrom tc o =>
    if tc < objs.cnt ∧ o < objs.cnt then
      some { objs with
        codes := if tc = o then objs.codes else Function.update objs.codes tc (objs.codes o) }
    else none
  | .set tc comp n =>
    if tc < objs.cnt then
      (assign fuel objs.codes tc comp n).map fun codes => { objs with codes := codes }
    else none
  | .increment tc =>
    if tc < objs.cnt then
      ((int ((objs.codes tc).frames.value + (objs.codes tc).sgn.value)).bind fun n =>
        assign fuel objs.codes tc .frames n).map fun codes => { objs with codes := codes }
    else none
  | .decrement tc =>
    if tc < objs.cnt then
      ((int ((objs.codes tc).frames.value - (objs.codes tc).sgn.value)).bind fun n =>
        assign fuel objs.codes tc .frames n).map fun codes => { objs with codes := codes }
    else none
  | .invert tc =>
    if tc < objs.cnt then
      (invertOrientation (assign fuel) objs.codes tc).map fun codes => { objs with codes := codes }
    else none

/-- Any sequence of operations on time codes, starting without any. -/
def machine : Machine Objects Operation where
  init objs := objs.cnt = 0
  step objs op objs' := ∃ fuel, objs.perform fuel op = some objs'

end Objects

end Lumiera.Lib.Time
