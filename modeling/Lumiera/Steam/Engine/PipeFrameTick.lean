import Lumiera.Base.Iteration
import Lumiera.Lib.Time.FrameQuantisation

/-! # The frame sequence for job planning (`steam/engine/dispatcher.hpp`, `steam/play/timings.cpp`)

The first step of the job planning pipeline establishes a sequence of frame start times. It begins
with the next point of the frame grid at or after the start of the planning chunk, and goes on until
the time reaches the end of the chunk. -/

namespace Lumiera.Steam.Engine

open Lib.RawTime

/-- A frame grid; the other data of the timings has no part in the frame sequence. -/
structure Timings where
  grid_ : FixedFrameQuantiser

namespace Timings

variable (timings : Timings)

def getFrameStartAt (frameNr : Int64) : gavl_time_t := timings.grid_.timeOf frameNr

/-- The next grid point at or after the given reference time. -/
def getBreakPointAfter (refPoint : gavl_time_t) : Int64 :=
  let frameNr := timings.grid_.gridPoint refPoint
  if timings.grid_.timeOf frameNr = refPoint then frameNr else frameNr + 1

end Timings

/-- Establish a sequence of frame start times. -/
structure PipeFrameTick where
  timings : Timings
  currPoint : gavl_time_t := timeMax
  stopPoint : gavl_time_t := timeMax
  frameNr : Int64 := 0

namespace PipeFrameTick

def checkPoint (tick : PipeFrameTick) : Bool := tick.currPoint < tick.stopPoint

def iterNext (tick : PipeFrameTick) : PipeFrameTick :=
  let frameNr := tick.frameNr + 1
  { tick with frameNr, currPoint := tick.timings.getFrameStartAt frameNr }

def activate (tick : PipeFrameTick) (start after : gavl_time_t) : PipeFrameTick :=
  let frameNr := tick.timings.getBreakPointAfter start
  { tick with stopPoint := after, frameNr, currPoint := tick.timings.getFrameStartAt frameNr }

/-- The iteration yields the frame numbers together with the start times. -/
def core : StateCore PipeFrameTick (Int64 × gavl_time_t) where
  checkPoint := checkPoint
  yield tick := some (tick.frameNr, tick.currPoint)
  iterNext tick := some tick.iterNext

end PipeFrameTick

/-! ## The frames meant -/

/-- **Exactly the frames which start within a range**: each one once, in ascending order, with its
start time. -/
structure FramesWithin (grid : FixedFrameQuantiser) (a b : ℤ)
    (frames : List (Int64 × gavl_time_t)) : Prop where
  ascending : frames.Pairwise fun f g => f.1 < g.1
  exactly : ∀ n t : ℤ, (∃ f ∈ frames, f.1.toInt = n ∧ f.2.toInt = t) ↔
    t = grid.startOf n ∧ a ≤ t ∧ t < b

section Frames

variable (grid : FixedFrameQuantiser)

/-- A frame as it is yielded. -/
def frame (n : ℤ) : Int64 × gavl_time_t := (Int64.ofInt n, grid.timeOf (Int64.ofInt n))

/-- A number of frames, one after the other. -/
def framesFrom : ℕ → ℤ → List (Int64 × gavl_time_t)
  | 0, _ => []
  | count + 1, n => frame grid n :: framesFrom count (n + 1)

variable {grid} {n m : ℤ} {count : ℕ} {a b c : gavl_time_t}

theorem framesFrom_append (count more : ℕ) (n : ℤ) :
    framesFrom grid count n ++ framesFrom grid more (n + count) = framesFrom grid (count + more) n := by
  induction count generalizing n with
  | zero => simp [framesFrom]
  | succ count ih =>
    have hnext : n + (count + 1 : ℕ) = n + 1 + count := by push_cast; ring
    have hcount : count + 1 + more = count + more + 1 := by ring
    rw [hcount, framesFrom, framesFrom, List.cons_append, hnext, ih]

theorem mem_framesFrom {f : Int64 × gavl_time_t} :
    f ∈ framesFrom grid count n ↔ ∃ m, n ≤ m ∧ m < n + count ∧ f = frame grid m := by
  induction count generalizing n with
  | zero =>
    refine iff_of_false List.not_mem_nil ?_
    rintro ⟨m, hle, hlt, -⟩
    omega
  | succ count ih =>
    rw [framesFrom, List.mem_cons, ih]
    constructor
    · rintro (rfl | ⟨m, hle, hlt, rfl⟩)
      · exact ⟨n, le_rfl, by omega, rfl⟩
      · exact ⟨m, by omega, by omega, rfl⟩
    · rintro ⟨m, hle, hlt, rfl⟩
      rcases eq_or_lt_of_le hle with rfl | hlt'
      · exact Or.inl rfl
      · exact Or.inr ⟨m, hlt', by omega, rfl⟩

theorem ascending_framesFrom (hnear : ∀ m, n ≤ m → m < n + count → grid.Near m) :
    (framesFrom grid count n).Pairwise fun f g => f.1 < g.1 := by
  induction count generalizing n with
  | zero => exact .nil
  | succ count ih =>
    refine .cons ?_ (ih fun m hle hlt => hnear m (by omega) (by omega))
    intro g hg
    obtain ⟨m, hle, hlt, rfl⟩ := mem_framesFrom.mp hg
    rw [frame, frame, Int64.lt_iff_toInt_lt, (hnear n le_rfl (by omega)).toInt_ofInt,
      (hnear m (by omega) (by omega)).toInt_ofInt]
    exact hle

/-! ## The iteration -/

theorem near_of_between (hlow : grid.ceil (-307445734561825860) - 1 ≤ n) (hhigh : n ≤ grid.ceil 307445734561825860) :
    grid.Near n := by
  have hraster := grid.raster_toInt_le
  have hfirst := grid.le_startOf_iff.mpr (le_refl (grid.ceil (-307445734561825860)))
  have hlast := grid.startOf_lt_time_iff.mpr (sub_one_lt (grid.ceil 307445734561825860))
  have hbefore := grid.startOf_succ (grid.ceil (-307445734561825860) - 1)
  have hbehind := grid.startOf_succ (grid.ceil 307445734561825860 - 1)
  rw [sub_add_cancel] at hbefore hbehind
  have hle := grid.startOf_le_iff.mpr hlow
  have hle' := grid.startOf_le_iff.mpr hhigh
  constructor <;> omega

theorem near_of_time {t t' : gavl_time_t} (ht : InTimeRange t) (ht' : InTimeRange t')
    (hlow : grid.ceil t.toInt - 1 ≤ n)
    (hhigh : n ≤ grid.ceil t'.toInt) : grid.Near n := by
  rw [inTimeRange_iff] at ht ht'
  have hfirst := grid.ceil_mono ht.1
  have hlast := grid.ceil_mono ht'.2
  exact near_of_between (by omega) (by omega)

theorem toInt_frame (hnear : grid.Near n) (hlow : -307445734561825860 ≤ grid.startOf n)
    (hhigh : grid.startOf n ≤ 307445734561825860) : (frame grid n).2.toInt = grid.startOf n := by
  rw [frame, FixedFrameQuantiser.toInt_timeOf hnear]
  omega

/-- The iteration yields all frames up to the end, beginning with the given one. -/
theorem delivers_framesFrom {timings : Timings} (ha : InTimeRange a) (hb : InTimeRange b)
    (hbegin : -307445734561825860 < b.toInt) (hlow : timings.grid_.ceil a.toInt - 1 ≤ n)
    (hhigh : n ≤ timings.grid_.ceil b.toInt) :
    PipeFrameTick.core.Delivers ⟨timings, (frame timings.grid_ n).2, b, (frame timings.grid_ n).1⟩
      (framesFrom timings.grid_ (timings.grid_.ceil b.toInt - n).toNat n) := by
  induction hcount : (timings.grid_.ceil b.toInt - n).toNat generalizing n with
  | zero =>
    -- the start time is not before the end any more
    apply StateCore.Delivers.exhausted
    have hend := timings.grid_.le_startOf_iff.mpr (show timings.grid_.ceil b.toInt ≤ n by omega)
    rw [inTimeRange_iff] at hb
    refine decide_eq_false ?_
    show ¬ (frame timings.grid_ n).2 < b
    rw [Int64.lt_iff_toInt_lt, frame,
      FixedFrameQuantiser.toInt_timeOf (near_of_time ha ((inTimeRange_iff b).mpr hb) hlow hhigh)]
    omega
  | succ count ih =>
    have hbefore := timings.grid_.startOf_lt_time_iff.mpr (show n < timings.grid_.ceil b.toInt by omega)
    have hnext := ih (n := n + 1) (by omega) (by omega) (by omega)
    have hnumber : Int64.ofInt n + 1 = Int64.ofInt (n + 1) := by
      rw [Int64.ofInt_add]
      rfl
    refine .next (t := PipeFrameTick.iterNext
      ⟨timings, (frame timings.grid_ n).2, b, (frame timings.grid_ n).1⟩)
      ?_ rfl rfl ?_
    · rw [inTimeRange_iff] at hb
      refine decide_eq_true ?_
      show (frame timings.grid_ n).2 < b
      rw [Int64.lt_iff_toInt_lt, frame,
        FixedFrameQuantiser.toInt_timeOf (near_of_time ha ((inTimeRange_iff b).mpr hb) hlow hhigh)]
      omega
    · rw [PipeFrameTick.iterNext]
      dsimp only [frame]
      rw [hnumber]
      exact hnext

/-- **Where the iteration begins**: with the first frame at or after the time; yet when this is the
begin of the time range and not a grid point, with the frame before, since its start is limited to
this time. -/
theorem getBreakPointAfter_spec (timings : Timings) (ha : InTimeRange a) :
    ((timeMin < a ∨ ∃ n, timings.grid_.startOf n = timeMin.toInt) ∧
      timings.getBreakPointAfter a = Int64.ofInt (timings.grid_.ceil a.toInt)) ∨
    (a = timeMin ∧ (∀ n, timings.grid_.startOf n ≠ timeMin.toInt) ∧
      timings.getBreakPointAfter a = Int64.ofInt (timings.grid_.ceil a.toInt - 1)) := by
  obtain ⟨g, hg⟩ : ∃ g, g = (timings.grid_.gridPoint a).toInt := ⟨_, rfl⟩
  have hpoint : timings.grid_.gridPoint a = Int64.ofInt g := by rw [hg, Int64.ofInt_toInt]
  obtain ⟨hle, hlt⟩ := @FixedFrameQuantiser.gridPoint_spec timings.grid_ a ha
  rw [← hg] at hle hlt
  have hceil := timings.grid_.le_startOf_iff.mp hlt.le
  have hnear : timings.grid_.Near g := by
    refine near_of_time ha ha (by omega) ?_
    by_contra hbehind
    have hge := timings.grid_.le_startOf_iff.mpr (show timings.grid_.ceil a.toInt ≤ g - 1 by omega)
    have hstrict := timings.grid_.startOf_lt_iff.mpr (sub_one_lt g)
    omega
  have hmin : timeMin.toInt = -307445734561825860 := rfl
  have hnext : Int64.ofInt g + 1 = Int64.ofInt (g + 1) := by
    rw [Int64.ofInt_add]
    rfl
  have htime : (timings.grid_.timeOf (Int64.ofInt g) = a) ↔
      timings.grid_.startOf g = a.toInt ∨ a.toInt = -307445734561825860 := by
    rw [← Int64.toInt_inj, FixedFrameQuantiser.toInt_timeOf hnear]
    rw [inTimeRange_iff] at ha
    omega
  rw [Timings.getBreakPointAfter, hpoint]
  by_cases hon : timings.grid_.startOf g = a.toInt
  · -- exactly on the grid
    have hceilEq : timings.grid_.ceil a.toInt = g := by
      apply le_antisymm (timings.grid_.le_startOf_iff.mp hon.ge)
      by_contra hbefore
      have hge := timings.grid_.le_startOf_iff.mpr (show timings.grid_.ceil a.toInt ≤ g - 1 by omega)
      have hstrict := timings.grid_.startOf_lt_iff.mpr (sub_one_lt g)
      omega
    refine Or.inl ⟨?_, ?_⟩
    · rcases eq_or_ne a timeMin with rfl | hne
      · exact Or.inr ⟨g, hon⟩
      · have hne' : a.toInt ≠ -307445734561825860 := fun h => hne (Int64.toInt_inj.mp (h.trans hmin.symm))
        rw [Int64.lt_iff_toInt_lt]
        exact Or.inl (lt_of_le_of_ne ((inTimeRange_iff a).mp ha).1 hne'.symm)
    · rw [if_pos (htime.mpr (Or.inl hon)), hceilEq]
  · have hceilEq : timings.grid_.ceil a.toInt = g + 1 := by
      have hbefore := timings.grid_.startOf_lt_time_iff.mp (lt_of_le_of_ne hle hon)
      omega
    by_cases hbegin : a.toInt = -307445734561825860
    · refine Or.inr ⟨Int64.toInt_inj.mp (hbegin.trans hmin.symm), fun n hn => ?_, ?_⟩
      · -- a grid point here would be the one found
        rw [hmin, ← hbegin] at hn
        have hup := timings.grid_.le_startOf_iff.mp hn.ge
        have hdown : n < g + 1 := timings.grid_.startOf_lt_iff.mp (hn ▸ hlt)
        omega
      · rw [if_pos (htime.mpr (Or.inr hbegin)), hceilEq, add_sub_cancel_right]
    · refine Or.inl ⟨Or.inl ?_, ?_⟩
      · rw [Int64.lt_iff_toInt_lt]
        exact lt_of_le_of_ne ((inTimeRange_iff a).mp ha).1 (Ne.symm hbegin)
      · rw [if_neg (fun h => (htime.mp h).elim hon hbegin), hceilEq, hnext]

theorem delivers_activate_timeMin (tick : PipeFrameTick) :
    PipeFrameTick.core.Delivers (tick.activate timeMin timeMin) [] := by
  have ha : InTimeRange timeMin := by decide
  have hmin : timeMin.toInt = -307445734561825860 := rfl
  have hlimited : ∀ n, tick.timings.grid_.Near n → ¬ tick.timings.grid_.timeOf (Int64.ofInt n) < timeMin := by
    intro n hn
    rw [Int64.lt_iff_toInt_lt, FixedFrameQuantiser.toInt_timeOf hn]
    omega
  apply StateCore.Delivers.exhausted
  refine decide_eq_false ?_
  show ¬ tick.timings.grid_.timeOf (tick.timings.getBreakPointAfter timeMin) < timeMin
  rcases getBreakPointAfter_spec tick.timings ha with ⟨-, hpoint⟩ | ⟨-, -, hpoint⟩
  · rw [hpoint]
    exact hlimited _ (near_of_time ha ha (by omega) le_rfl)
  · rw [hpoint]
    exact hlimited _ (near_of_time ha ha le_rfl (by omega))

/-- **What an activated frame sequence yields**: all frames from the first one at or after the
start, up to the end. -/
theorem delivers_activate (tick : PipeFrameTick) (ha : InTimeRange a) (hb : InTimeRange b) (hab : a ≤ b)
    (hbegin : timeMin < a ∨ ∃ n, tick.timings.grid_.startOf n = timeMin.toInt) :
    PipeFrameTick.core.Delivers (tick.activate a b) (framesFrom tick.timings.grid_
      (tick.timings.grid_.ceil b.toInt - tick.timings.grid_.ceil a.toInt).toNat
      (tick.timings.grid_.ceil a.toInt)) := by
  have hle := tick.timings.grid_.ceil_mono (Int64.le_iff_toInt_le.mp hab)
  have hpoint : tick.timings.getBreakPointAfter a = Int64.ofInt (tick.timings.grid_.ceil a.toInt) := by
    rcases getBreakPointAfter_spec tick.timings ha with ⟨-, hpoint⟩ | ⟨rfl, hoff, -⟩
    · exact hpoint
    · rcases hbegin with hlt | ⟨n, hn⟩
      · exact absurd hlt (by decide)
      · exact absurd hn (hoff n)
  rw [PipeFrameTick.activate, hpoint]
  by_cases hend : -307445734561825860 < b.toInt
  · exact delivers_framesFrom ha hb hend (by omega) hle
  · -- no time is before the begin of the range
    obtain ⟨hlow, -⟩ := (inTimeRange_iff a).mp ha
    have hle' := Int64.le_iff_toInt_le.mp hab
    obtain rfl : b = timeMin := Int64.toInt_inj.mp (show b.toInt = -307445734561825860 by omega)
    obtain rfl : a = timeMin := Int64.toInt_inj.mp (show a.toInt = -307445734561825860 by omega)
    rw [sub_self, ← hpoint]
    exact delivers_activate_timeMin tick

/-- At the begin of the range of times, yet not on the grid, there is one frame more. -/
theorem delivers_activate_begin (tick : PipeFrameTick) (hb : InTimeRange b) (hbegin : timeMin < b)
    (hoff : ∀ n, tick.timings.grid_.startOf n ≠ timeMin.toInt) :
    ∃ frames, PipeFrameTick.core.Delivers (tick.activate timeMin b)
      (frame tick.timings.grid_ (tick.timings.grid_.ceil timeMin.toInt - 1) :: frames) := by
  have ha : InTimeRange timeMin := by decide
  have hlt := Int64.lt_iff_toInt_lt.mp hbegin
  have hle := tick.timings.grid_.ceil_mono hlt.le
  have hpoint : tick.timings.getBreakPointAfter timeMin =
      Int64.ofInt (tick.timings.grid_.ceil timeMin.toInt - 1) := by
    rcases getBreakPointAfter_spec tick.timings ha with ⟨hlt | ⟨n, hn⟩, -⟩ | ⟨-, -, hpoint⟩
    · exact absurd hlt (by decide)
    · exact absurd hn (hoff n)
    · exact hpoint
  obtain ⟨count, hcount⟩ : ∃ count : ℕ, (tick.timings.grid_.ceil b.toInt -
      (tick.timings.grid_.ceil timeMin.toInt - 1)).toNat = count + 1 :=
    ⟨(tick.timings.grid_.ceil b.toInt - tick.timings.grid_.ceil timeMin.toInt).toNat, by omega⟩
  have h : PipeFrameTick.core.Delivers ⟨tick.timings,
      (frame tick.timings.grid_ (tick.timings.grid_.ceil timeMin.toInt - 1)).2, b,
      (frame tick.timings.grid_ (tick.timings.grid_.ceil timeMin.toInt - 1)).1⟩
      (framesFrom tick.timings.grid_ (tick.timings.grid_.ceil b.toInt -
      (tick.timings.grid_.ceil timeMin.toInt - 1)).toNat
        (tick.timings.grid_.ceil timeMin.toInt - 1)) := delivers_framesFrom ha hb hlt le_rfl (by omega)
  rw [hcount] at h
  refine ⟨framesFrom tick.timings.grid_ count (tick.timings.grid_.ceil timeMin.toInt - 1 + 1), ?_⟩
  rw [PipeFrameTick.activate, hpoint]
  exact h

theorem framesWithin_framesFrom (ha : InTimeRange a) (hb : InTimeRange b) :
    FramesWithin grid a.toInt b.toInt
      (framesFrom grid (grid.ceil b.toInt - grid.ceil a.toInt).toNat (grid.ceil a.toInt)) where
  ascending := by
    apply ascending_framesFrom
    intro m hle hlt
    exact near_of_time ha hb (by omega) (by omega)
  exactly n t := by
    have hlow := ((inTimeRange_iff a).mp ha).1
    have hhigh := ((inTimeRange_iff b).mp hb).2
    constructor
    · rintro ⟨f, hf, rfl, rfl⟩
      obtain ⟨m, hle, hlt, rfl⟩ := mem_framesFrom.mp hf
      have hnear : grid.Near m := near_of_time ha hb (by omega) (by omega)
      have hstart := grid.le_startOf_iff.mpr hle
      have hend := grid.startOf_lt_time_iff.mpr (show m < grid.ceil b.toInt by omega)
      have htime := toInt_frame hnear (by omega) (by omega)
      have hnumber : (frame grid m).1.toInt = m := hnear.toInt_ofInt
      rw [hnumber, htime]
      exact ⟨rfl, hstart, hend⟩
    · rintro ⟨rfl, hstart, hend⟩
      have hle := grid.le_startOf_iff.mp hstart
      have hlt := grid.startOf_lt_time_iff.mp hend
      have hnear : grid.Near n := near_of_time ha hb (by omega) (by omega)
      refine ⟨frame grid n, mem_framesFrom.mpr ⟨n, hle, by omega, rfl⟩, ?_, ?_⟩
      · exact hnear.toInt_ofInt
      · exact toInt_frame hnear (by omega) (by omega)

/-- **The frames of adjacent planning chunks**: activated with the first range, the sequence
consists of exactly the frames which start there; followed by the sequence for the adjacent range,
this is the sequence for both ranges together. -/
def ChunksPlanned (tick : PipeFrameTick) (a b c : gavl_time_t) : Prop :=
  ∃ ab bc ac, PipeFrameTick.core.Delivers (tick.activate a b) ab ∧ PipeFrameTick.core.Delivers
    (tick.activate b c) bc ∧
    PipeFrameTick.core.Delivers (tick.activate a c) ac ∧
    FramesWithin tick.timings.grid_ a.toInt b.toInt ab ∧ ab ++ bc = ac

/-- **No frame is lost or planned twice**, exactly unless the planning chunk starts with the begin
of the time range and this is not a grid point: then the frame before is planned as well, with its
start moved to the begin of the time range. -/
theorem chunksPlanned_iff (tick : PipeFrameTick) (hlow : timeMin ≤ a) (hab : a ≤ b) (hbc : b ≤ c)
    (hhigh : c ≤ timeMax) :
    ChunksPlanned tick a b c ↔
      timeMin < a ∨ b = timeMin ∨ ∃ n, tick.timings.grid_.startOf n = timeMin.toInt := by
  have ha : InTimeRange a := ⟨hlow, Int64.le_trans hab (Int64.le_trans hbc hhigh)⟩
  have hb : InTimeRange b := ⟨Int64.le_trans hlow hab, Int64.le_trans hbc hhigh⟩
  have hc : InTimeRange c := ⟨Int64.le_trans hb.1 hbc, hhigh⟩
  have hac := Int64.le_trans hab hbc
  constructor
  · rintro ⟨ab, bc, ac, hdelivered, -, -, hwithin, -⟩
    by_contra hnone
    rw [not_or, not_or] at hnone
    obtain ⟨hstart, hend, hoff⟩ := hnone
    obtain rfl : a = timeMin := Int64.le_antisymm (Int64.not_lt.mp hstart) hlow
    have hbegin : timeMin < b := Int64.lt_of_le_of_ne hab (Ne.symm hend)
    -- the first frame yielded does not start there
    obtain ⟨frames, hyielded⟩ := delivers_activate_begin tick hb hbegin (not_exists.mp hoff)
    obtain rfl := hdelivered.unique hyielded
    obtain ⟨htime, -, -⟩ := (hwithin.exactly _ _).mp ⟨_, List.mem_cons_self, rfl, rfl⟩
    have hnear : tick.timings.grid_.Near (tick.timings.grid_.ceil timeMin.toInt - 1) :=
      near_of_time ha ha le_rfl (by omega)
    have hnumber : (frame tick.timings.grid_ (tick.timings.grid_.ceil timeMin.toInt - 1)).1.toInt =
        tick.timings.grid_.ceil timeMin.toInt - 1 := hnear.toInt_ofInt
    have hbefore := tick.timings.grid_.startOf_lt_time_iff.mpr
        (sub_one_lt (tick.timings.grid_.ceil timeMin.toInt))
    have hmin : timeMin.toInt = -307445734561825860 := rfl
    rw [hnumber, frame, FixedFrameQuantiser.toInt_timeOf hnear] at htime
    omega
  · intro hgood
    by_cases hempty : timeMin < a ∨ ∃ n, tick.timings.grid_.startOf n = timeMin.toInt
    · have hempty' : timeMin < b ∨ ∃ n, tick.timings.grid_.startOf n = timeMin.toInt :=
        hempty.imp_left fun h => Int64.lt_of_lt_of_le h hab
      have hle := tick.timings.grid_.ceil_mono (Int64.le_iff_toInt_le.mp hab)
      have hle' := tick.timings.grid_.ceil_mono (Int64.le_iff_toInt_le.mp hbc)
      refine ⟨_, _, _, delivers_activate tick ha hb hab hempty, delivers_activate tick hb hc hbc hempty',
        delivers_activate tick ha hc hac hempty, framesWithin_framesFrom ha hb, ?_⟩
      -- the second sequence continues where the first one stops
      have hnext : tick.timings.grid_.ceil b.toInt = tick.timings.grid_.ceil a.toInt +
          (tick.timings.grid_.ceil b.toInt - tick.timings.grid_.ceil a.toInt).toNat := by omega
      have hcount : (tick.timings.grid_.ceil c.toInt - tick.timings.grid_.ceil a.toInt).toNat =
          (tick.timings.grid_.ceil b.toInt - tick.timings.grid_.ceil a.toInt).toNat +
          (tick.timings.grid_.ceil c.toInt - tick.timings.grid_.ceil b.toInt).toNat := by omega
      rw [hcount, ← framesFrom_append, ← hnext]
    · -- the first sequence is empty, and the other two are the same
      obtain rfl : b = timeMin := hgood.resolve_left (fun h => hempty (Or.inl h))
        |>.resolve_right fun h => hempty (Or.inr h)
      obtain rfl : a = timeMin := Int64.le_antisymm hab hlow
      obtain ⟨frames, hframes⟩ : ∃ frames, PipeFrameTick.core.Delivers (tick.activate timeMin c) frames := by
        by_cases hbegin : timeMin < c
        · obtain ⟨frames, hframes⟩ := delivers_activate_begin tick hc hbegin
            (not_exists.mp fun h => hempty (Or.inr h))
          exact ⟨_, hframes⟩
        · obtain rfl : c = timeMin := Int64.le_antisymm (Int64.not_lt.mp hbegin) hbc
          exact ⟨[], delivers_activate_timeMin tick⟩
      refine ⟨[], frames, frames, delivers_activate_timeMin tick, hframes, hframes, ?_, rfl⟩
      have hnone : FramesWithin tick.timings.grid_ timeMin.toInt timeMin.toInt (framesFrom tick.timings.grid_
          (tick.timings.grid_.ceil timeMin.toInt - tick.timings.grid_.ceil timeMin.toInt).toNat
          (tick.timings.grid_.ceil timeMin.toInt)) := framesWithin_framesFrom ha ha
      rw [sub_self] at hnone
      exact hnone

/-- The grid of 25 frames per second, with a frame at the time zero. -/
def pal : Timings := ⟨⟨0, 40000, FixedFrameQuantiser.zero_range, by decide, by decide⟩⟩

/-- Three frames before a chunk boundary on a grid point, and one behind. -/
theorem chunksPlanned_iff_pal : ChunksPlanned { timings := pal } (-100000) 40000 40001 ↔
    timeMin < -100000 ∨ (40000 : gavl_time_t) = timeMin ∨ ∃ n, pal.grid_.startOf n = timeMin.toInt :=
  chunksPlanned_iff { timings := pal } (by decide) (by decide) (by decide) (by decide)

/-- A chunk from the begin of the time range: the frame which started earlier is planned as well. -/
theorem not_chunksPlanned_begin : ¬ ChunksPlanned { timings := pal } timeMin 0 40000 := by
  rintro ⟨ab, bc, ac, hdelivered, -, -, hwithin, -⟩
  have hmin : timeMin.toInt = -307445734561825860 := rfl
  have hoff : ∀ n, pal.grid_.startOf n ≠ timeMin.toInt := by
    intro n
    have hstart : pal.grid_.startOf n = 0 + n * 40000 := rfl
    omega
  obtain ⟨frames, hyielded⟩ := delivers_activate_begin { timings := pal } (b := 0) (by decide)
      (by decide) hoff
  obtain rfl := hdelivered.unique hyielded
  obtain ⟨htime, hle, -⟩ := (hwithin.exactly _ _).mp ⟨_, List.mem_cons_self, rfl, rfl⟩
  -- it is yielded with the time which is not on the grid
  have hyieldedAt : (frame pal.grid_ (pal.grid_.ceil timeMin.toInt - 1)).2 = timeMin := by decide
  exact hoff _ (htime.symm.trans (by rw [hyieldedAt]))

end Frames

end Lumiera.Steam.Engine
