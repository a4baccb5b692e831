import Lumiera.Base.Machine
import Lumiera.Lib.SplitSpliceCorrect
import Lumiera.Lib.Time.TimeValue

/-! # Segmentation of the timeline (`steam/fixture/segmentation.cpp`)

For the purpose of building and rendering, the fixture is partitioned into segments which are
structurally constant. A `Segmentation` covers the whole time axis seamlessly; this is a field of
the structure, so that a broken partitioning cannot be built. -/

namespace Lumiera.Steam.Fixture

open Lumiera.Lib Lumiera.Lib.SplitSplice

variable {ExitNode : Type}

/-- A segment of the timeline, with the exit nodes to be used for it. -/
structure Segment (ExitNode : Type) where
  /-- The time interval covered (`span_`). -/
  span : TimeSpan
  /-- Connection to the render nodes network, for each model port. -/
  exitNode : List ExitNode
  deriving DecidableEq, Repr

namespace Segment

/-- Start of the segment. -/
def start (seg : Segment ExitNode) : Int := seg.span.start

/-- The point after the end of the segment. -/
def after (seg : Segment ExitNode) : Int := seg.span.after

/-- A segment offering the rendering capabilities exposed by `modelLink`. -/
def create (span : TimeSpan) (modelLink : List ExitNode) : Segment ExitNode := ⟨span, modelLink⟩

/-- An empty segment. -/
def createEmpty (span : TimeSpan) : Segment ExitNode := ⟨span, []⟩

/-- Copy and remould an existing segment, to sit at another time span. -/
def remould (original : Segment ExitNode) (changed : TimeSpan) : Segment ExitNode :=
  ⟨changed, original.exitNode⟩

end Segment

/-- The functors handed to the algorithm by `Segmentation::splitSplice`. -/
def splicing (modelLink : List ExitNode) : Binding Int (Segment ExitNode) (List ExitNode) where
  lo := Time.MIN
  hi := Time.NEVER
  start := Segment.start
  after := Segment.after
  payload := Segment.exitNode
  trunc start after src := src.remould (.ofBounds start after)
  createSeg start after := .create (.ofBounds start after) modelLink
  emptySeg start after := .createEmpty (.ofBounds start after)
  newPayload := modelLink
  start_trunc _ _ _ _ hle _ := TimeSpan.start_ofBounds hle
  after_trunc _ _ _ hs hle ha := TimeSpan.after_ofBounds hs hle ha
  payload_trunc _ _ _ := rfl
  start_createSeg _ _ _ hle _ := TimeSpan.start_ofBounds hle
  after_createSeg _ _ hs hle ha := TimeSpan.after_ofBounds hs hle ha
  payload_createSeg _ _ := rfl

/-- The partitioning of the time axis into segments. -/
structure Segmentation (ExitNode : Type) where
  /-- Segments in ordered sequence (`segments_`). -/
  segments : List (Segment ExitNode)
  /-- They cover the whole axis, without gap or overlap. -/
  seamless : (splicing []).Seamless Time.MIN Time.NEVER segments

namespace Segmentation

/-- Initially there is a single cover-all segment. -/
def initial : Segmentation ExitNode where
  segments := [.createEmpty .ALL]
  seamless := ⟨rfl, (by decide : Time.MIN < Time.MIN + Time.durationMax), rfl⟩

/-- `operator[]`: the exit nodes of the segment covering the given time. -/
def exitNodeAt (segments : List (Segment ExitNode)) (time : Int) : Option (List ExitNode) :=
  (segments.find? (time < ·.after)).map (·.exitNode)

/-- Rework the segmentation to include a new segment. -/
def splitSplice (checked : Bool) (self : Segmentation ExitNode) (start after : Option Int)
    (modelLink : List ExitNode) : Option (Spliced (Segment ExitNode)) := do
  ensure checked (start = none ∨ after = none ∨ start ≠ after)
  (splicing modelLink).splitSplice checked self.segments start after

theorem segments_ne_nil (self : Segmentation ExitNode) : self.segments ≠ [] := by
  intro hnil
  have h := self.seamless
  rw [hnil] at h
  exact absurd (show Time.MIN = Time.NEVER from h) (by decide)

/-- **The requested segment is integrated**: the result is a segmentation again, containing the
new segment at the requested or inferred bounds, amidst parts of the former segments; and at every
time outside of the new segment the same exit nodes are found as before. -/
def Integrated (self : Segmentation ExitNode) (start after : Option Int)
    (modelLink : List ExitNode) (r : Spliced (Segment ExitNode)) : Prop :=
  (splicing modelLink).Seamless Time.MIN Time.NEVER r.segments ∧
    ∃ left new right, r.segments = left ++ new :: right ∧ r.n = left.length ∧
      new.exitNode = modelLink ∧
      (splicing modelLink).Requested self.segments start after new.start new.after ∧
      (∀ seg ∈ left ++ right, ∃ former ∈ self.segments,
        seg.exitNode = former.exitNode ∧ former.start ≤ seg.start ∧ seg.after ≤ former.after) ∧
      ∀ time, Time.MIN ≤ time → time < Time.NEVER → ¬ (new.start ≤ time ∧ time < new.after) →
        exitNodeAt r.segments time = exitNodeAt self.segments time

/-- Requests which are handled: bounds given in reversed order have no start of a segment strictly
between them, and a single bound leaves room for a segment within the axis. -/
def Regular (self : Segmentation ExitNode) : Option Int → Option Int → Prop
  | some start, some after =>
    start < after ∨ ∀ seg ∈ self.segments, ¬ (after < seg.start ∧ seg.start < start)
  | some start, none => start < Time.NEVER
  | none, some after => Time.MIN < after
  | none, none => True

theorem splitSplice_eq (checked : Bool) (self : Segmentation ExitNode) {start after : Option Int}
    (modelLink : List ExitNode) (hdiff : ∀ s ∈ start, ∀ a ∈ after, s ≠ a) :
    self.splitSplice checked start after modelLink =
      (splicing modelLink).splitSplice checked self.segments start after := by
  have hassert : start = none ∨ after = none ∨ start ≠ after := by
    cases start with
    | none => exact .inl rfl
    | some s =>
      cases after with
      | none => exact .inr (.inl rfl)
      | some a => exact .inr (.inr fun h => hdiff s rfl a rfl (Option.some.inj h))
  rw [splitSplice, ensure_of_true hassert]
  rfl

/-- **A segment is integrated exactly for the regular requests**, whether or not the assertions
are compiled in (`checked`). -/
theorem splitSplice_integrates_iff (checked : Bool) (self : Segmentation ExitNode)
    (start after : Option Int) (modelLink : List ExitNode)
    (hstart : ∀ s ∈ start, Time.MIN ≤ s ∧ s ≤ Time.NEVER)
    (hafter : ∀ a ∈ after, Time.MIN ≤ a ∧ a ≤ Time.NEVER)
    (hdiff : ∀ s ∈ start, ∀ a ∈ after, s ≠ a) :
    (∃ r, self.splitSplice checked start after modelLink = some r ∧
      self.Integrated start after modelLink r) ↔ self.Regular start after := by
  rw [splitSplice_eq checked self modelLink hdiff]
  have hreg : (splicing modelLink).Regular self.segments start after ↔ self.Regular start after := by
    cases start <;> cases after <;> rfl
  rw [← hreg]
  exact Binding.integrated_iff self.seamless self.segments_ne_nil hstart hafter hdiff

/-- The reversed interval within a single segment is handled, and reoriented. -/
theorem splitSplice_reversed_within_segment : ∃ r, (initial : Segmentation Nat).splitSplice true (some 3) (some 2)
    [1] = some r ∧ (initial : Segmentation Nat).Integrated (some 3) (some 2) [1] r :=
  (splitSplice_integrates_iff true initial (some 3) (some 2) [1]
    (by rintro s ⟨⟩; decide) (by rintro a ⟨⟩; decide) (by rintro s ⟨⟩ a ⟨⟩; decide)).mpr
    (.inr (by simp [initial, Segment.start, Segment.createEmpty, TimeSpan.ALL, Time.MIN, Time.MAX]))

/-- A segmentation with a boundary at 7. -/
def splitAtSeven : Segmentation Nat where
  segments := [.create (.ofBounds Time.MIN 7) [1], .create (.ofBounds 7 Time.NEVER) [2]]
  seamless := ⟨by decide, by decide, by decide, by decide,
    (by decide : (TimeSpan.ofBounds 7 Time.NEVER).after = Time.NEVER)⟩

/-- What happens in a build without assertions to the reversed interval across a boundary: the new
segment overlaps its predecessor. -/
example : (splitAtSeven.splitSplice false (some 10) (some 5) [3]).map (·.segments) =
    some [.create (.ofBounds Time.MIN 7) [1], .create (.ofBounds 5 10) [3],
      .create (.ofBounds 10 Time.NEVER) [2]] := by
  decide

/-- Bounds given in reversed order, with a boundary strictly between them, are accepted but not
handled, neither with nor without assertions. -/
theorem reversed_across_boundary_fails :
    ¬ ∃ checked, ∀ (self : Segmentation Nat) (start after : Option Int) (modelLink : List Nat),
      (∀ s ∈ start, Time.MIN ≤ s ∧ s ≤ Time.NEVER) →
      (∀ a ∈ after, Time.MIN ≤ a ∧ a ≤ Time.NEVER) → (∀ s ∈ start, ∀ a ∈ after, s ≠ a) →
      ∃ r, self.splitSplice checked start after modelLink = some r ∧
        self.Integrated start after modelLink r := by
  rintro ⟨checked, hclaim⟩
  have hstart : ∀ s ∈ some (10 : Int), Time.MIN ≤ s ∧ s ≤ Time.NEVER := by rintro s ⟨⟩; decide
  have hafter : ∀ a ∈ some (5 : Int), Time.MIN ≤ a ∧ a ≤ Time.NEVER := by rintro a ⟨⟩; decide
  have hdiff : ∀ s ∈ some (10 : Int), ∀ a ∈ some (5 : Int), s ≠ a := by
    rintro s ⟨⟩ a ⟨⟩; decide
  obtain ⟨r, hr, hint⟩ := hclaim splitAtSeven (some 10) (some 5) [3] hstart hafter hdiff
  rw [splitSplice_eq checked splitAtSeven [3] hdiff] at hr
  refine Binding.not_integrated_of_not_regular (B := splicing [3]) splitAtSeven.seamless
    splitAtSeven.segments_ne_nil hstart hafter ?_ hr hint
  rintro (hlt | hbetween)
  · exact absurd hlt (by decide)
  · exact hbetween (.create (.ofBounds 7 Time.NEVER) [2]) (by simp [splitAtSeven]) (by decide)

/-! ## Reworking the segmentation again and again

Looking at the segmentation only through `operator[]`, it is a function from times to exit nodes, and
each new segment is painted over what was there. -/

/-- A call which reworks the segmentation, together with the segment it returned. -/
inductive Rework (ExitNode : Type)
  | splitSplice (start after : Option Int) (modelLink : List ExitNode) (answer : Segment ExitNode)
  | adaptSpecification (rewrite : List ExitNode → List ExitNode)

/-- What a call means for the exit nodes at each time. -/
def Rework.paint (content : Int → List ExitNode) : Rework ExitNode → Int → List ExitNode
  | .splitSplice _ _ modelLink answer, time =>
    if answer.start ≤ time ∧ time < answer.after then modelLink else content time
  | .adaptSpecification rewrite, time => rewrite (content time)

/-- Rewrite the exit nodes in each segment. -/
def rewriteEach (rewrite : List ExitNode → List ExitNode) (segments : List (Segment ExitNode)) :
    List (Segment ExitNode) :=
  segments.map fun seg => { seg with exitNode := rewrite seg.exitNode }

/-- A sequence of calls, starting with the single cover-all segment. -/
def reworking (checked : Bool) : Machine (Segmentation ExitNode) (Rework ExitNode) where
  init self := self = initial
  step self call self' := match call with
    | .splitSplice start after modelLink answer =>
      ∃ r, self.splitSplice checked start after modelLink = some r ∧ r.segments[r.n]? = some answer ∧
        self'.segments = r.segments
    | .adaptSpecification rewrite => self'.segments = rewriteEach rewrite self.segments

/-- The request has valid bounds and is handled. -/
def Accepted (self : Segmentation ExitNode) : Rework ExitNode → Prop
  | .splitSplice start after _ _ => (∀ s ∈ start, Time.MIN ≤ s ∧ s ≤ Time.NEVER) ∧
      (∀ a ∈ after, Time.MIN ≤ a ∧ a ≤ Time.NEVER) ∧ (∀ s ∈ start, ∀ a ∈ after, s ≠ a) ∧
      self.Regular start after
  | .adaptSpecification _ => True

/-- The segmentation shows this content. -/
def Shows (self : Segmentation ExitNode) (content : Int → List ExitNode) : Prop :=
  ∀ time, Time.MIN ≤ time → time < Time.NEVER → exitNodeAt self.segments time = some (content time)

variable {self self' : Segmentation ExitNode} {content : Int → List ExitNode} {time : Int}

/-- At first there are no exit nodes at any time. -/
theorem initial_shows : (initial : Segmentation ExitNode).Shows fun _ => [] := by
  intro time _ hnever
  have hafter : time < TimeSpan.ALL.after := lt_of_lt_of_le hnever (by decide)
  simp [exitNodeAt, initial, Segment.createEmpty, Segment.after, hafter]

/-- Rewriting commutes with the access. -/
theorem exitNodeAt_rewriteEach (rewrite : List ExitNode → List ExitNode) (segments : List (Segment ExitNode)) :
    exitNodeAt (rewriteEach rewrite segments) time = (exitNodeAt segments time).map rewrite := by
  induction segments with
  | nil => rfl
  | cons seg segments ih =>
    by_cases hafter : time < seg.after
    · simp [exitNodeAt, rewriteEach, Segment.after, show time < seg.span.after from hafter]
    · simpa [exitNodeAt, rewriteEach, Segment.after, show ¬ time < seg.span.after from hafter] using ih

theorem seamless_rewriteEach (rewrite : List ExitNode → List ExitNode)
    {segments : List (Segment ExitNode)} {a b : Int} (h : (splicing []).Seamless a b segments) :
    (splicing []).Seamless a b (rewriteEach rewrite segments) := by
  induction segments generalizing a with
  | nil => exact h
  | cons seg segments ih => exact ⟨h.1, h.2.1, ih h.2.2⟩

/-- The new segment is found at each time it covers. -/
theorem exitNodeAt_of_covers {modelLink : List ExitNode} {left right : List (Segment ExitNode)}
    {new : Segment ExitNode} (h : (splicing modelLink).Seamless Time.MIN Time.NEVER (left ++ new :: right))
    (hstart : new.start ≤ time) (hafter : time < new.after) :
    exitNodeAt (left ++ new :: right) time = some new.exitNode := by
  obtain ⟨m, hleft, hm, -⟩ := (Carving.seamless_append _).mp h
  have hskip : exitNodeAt (left ++ new :: right) time = exitNodeAt (new :: right) time :=
    Carving.payloadAt_append_right hleft (hm ▸ hstart)
  rw [hskip]
  simp [exitNodeAt, hafter]

/-- An accepted request is integrated, with or without assertions. -/
theorem integrated_of_accepted (checked : Bool) {start after : Option Int} {modelLink : List ExitNode}
    {answer : Segment ExitNode} (h : self.Accepted (.splitSplice start after modelLink answer)) :
    ∃ r, self.splitSplice checked start after modelLink = some r ∧ self.Integrated start after modelLink r := by
  obtain ⟨hstart, hafter, hdiff, hregular⟩ := h
  have hreg : (splicing modelLink).Regular self.segments start after := by
    cases start <;> cases after <;> exact hregular
  rw [splitSplice_eq checked self modelLink hdiff]
  exact Binding.integrated_of_regular self.seamless self.segments_ne_nil hstart hafter hdiff hreg

/-- Each call paints over the content. -/
theorem Shows.step {checked : Bool} {call : Rework ExitNode} (h : self.Shows content) (haccepted : self.Accepted call)
    (hstep : (reworking checked).step self call self') : self'.Shows (call.paint content) := by
  intro time hmin hnever
  cases call with
  | adaptSpecification rewrite =>
    have hsegments : self'.segments = rewriteEach rewrite self.segments := hstep
    rw [hsegments, exitNodeAt_rewriteEach, h time hmin hnever]
    rfl
  | splitSplice start after modelLink answer =>
    obtain ⟨r, hr, hanswer, hsegments⟩ := hstep
    obtain ⟨r', hr', hseamless, left, new, right, heq, hn, hlink, -, -, houtside⟩ :=
      integrated_of_accepted checked haccepted
    obtain rfl : r = r' := Option.some.inj (hr.symm.trans hr')
    have hnew : new = answer := by simpa [heq, hn] using hanswer
    subst hnew
    rw [hsegments]
    by_cases hcovers : new.start ≤ time ∧ time < new.after
    · rw [heq] at hseamless ⊢
      rw [exitNodeAt_of_covers hseamless hcovers.1 hcovers.2, hlink]
      simp [Rework.paint, hcovers]
    · rw [houtside time hmin hnever hcovers, h time hmin hnever]
      simp [Rework.paint, hcovers]

/-- **The segmentation shows what was painted**: each accepted call can be performed and leaves a
segmentation; after any sequence of them, `operator[]` finds at every time the exit nodes handed in
with the last segment laid over this time, with all rewriting done since. -/
theorem reworking_paints (checked : Bool) :
    (∀ (self : Segmentation ExitNode) start after modelLink answer,
      self.Accepted (.splitSplice start after modelLink answer) →
      ∃ answer self', (reworking checked).step self (.splitSplice start after modelLink answer) self' ∧
        answer.exitNode = modelLink ∧
        (splicing modelLink).Requested self.segments start after answer.start answer.after) ∧
    (∀ (self : Segmentation ExitNode) rewrite,
      ∃ self', (reworking checked).step self (.adaptSpecification rewrite) self') ∧
    ∀ calls (self : Segmentation ExitNode), ((reworking checked).restrict Accepted).Run initial calls self →
      self.Shows (calls.foldl Rework.paint fun _ => []) := by
  refine ⟨?_, ?_, ?_⟩
  · intro self start after modelLink _ haccepted
    obtain ⟨r, hr, hseamless, left, new, right, heq, hn, hlink, hrequested, -⟩ :=
      integrated_of_accepted checked haccepted
    refine ⟨new, ⟨r.segments, hseamless⟩, ⟨r, hr, ?_, rfl⟩, hlink, hrequested⟩
    simp [heq, hn]
  · exact fun self rewrite => ⟨⟨_, seamless_rewriteEach rewrite self.seamless⟩, rfl⟩
  · -- by induction on the calls, for any content shown before
    have hrun : ∀ calls (self self' : Segmentation ExitNode) content,
        ((reworking checked).restrict Accepted).Run self calls self' → self.Shows content →
        self'.Shows (calls.foldl Rework.paint content) := by
      intro calls
      induction calls with
      | nil =>
        intro self self' content hrun hshows
        cases hrun
        exact hshows
      | cons call calls ih =>
        intro self self' content hrun hshows
        cases hrun with
        | cons hfirst hrest => exact ih _ _ _ hrest (hshows.step hfirst.1 hfirst.2)
    exact fun calls self h => hrun calls initial self _ h initial_shows

end Segmentation

end Lumiera.Steam.Fixture
