import Lumiera.Base.Iteration

/-! # Iteration over the contents of a record (`lib/diff/record.hpp`)

The default iteration of a record works on one raw position, which runs through the attributes and
goes on with the children; the end of the iteration is marked by a default constructed position.
Whether a position is valid is decided by comparing it with the ends of the two collections, and a
collection which never allocated storage has the default position for its begin and its end. When
there are attributes but no children, no comparison detects the end of the attributes: the iteration
goes on behind it. -/

namespace Lumiera.Lib.Diff

open List

universe u

variable {VAL : Type u}

/-! ## The storage of a record -/

/-- One of the two collections of a record (`Storage`, a vector). -/
structure Storage (VAL : Type u) where
  /-- The elements. -/
  elms : List VAL
  /-- Whether storage has been allocated, which may also be the case for an empty vector. -/
  allocated : Bool
  /-- Elements live in allocated storage. -/
  allocated_of_elms : elms ≠ [] → allocated = true

/-- The two collections of a record. -/
structure RecordStorage (VAL : Type u) where
  /-- The attributes (`attribs_`). -/
  attribs_ : Storage VAL
  /-- The children (`children_`). -/
  children_ : Storage VAL

/-- A raw position (`ElmIter`). Positions in different storage are different, and none is the default one. -/
inductive ElmIter
  /-- The default constructed position. -/
  | END
  /-- The position with this index in the storage of the attributes. -/
  | attrib (idx : ℕ)
  /-- The position with this index in the storage of the children. -/
  | child (idx : ℕ)
  deriving DecidableEq, Repr

/-- `iterNext`: increments the position; the default position is never incremented. -/
def ElmIter.iterNext : ElmIter → ElmIter
  | .END => .END
  | .attrib idx => .attrib (idx + 1)
  | .child idx => .child (idx + 1)

namespace RecordStorage

variable (src : RecordStorage VAL)

/-- `attribs_.begin()`. -/
def attribsBegin : ElmIter := if src.attribs_.allocated then .attrib 0 else .END

/-- `attribs_.end()`. -/
def attribsEnd : ElmIter := if src.attribs_.allocated then .attrib src.attribs_.elms.length else .END

/-- `children_.begin()`. -/
def childrenBegin : ElmIter := if src.children_.allocated then .child 0 else .END

/-- `children_.end()`. -/
def childrenEnd : ElmIter := if src.children_.allocated then .child src.children_.elms.length else .END

/-- The element a position refers to; there is none at the end of a collection and behind it. -/
def deref : ElmIter → Option VAL
  | .END => none
  | .attrib idx => src.attribs_.elms[idx]?
  | .child idx => src.children_.elms[idx]?

/-- `checkPoint`: whether the position is valid, and the position adjusted. -/
def checkPoint (pos : ElmIter) : Bool × ElmIter :=
  if pos ≠ .END ∧ pos = src.attribsEnd ∧ src.children_.elms ≠ [] then
    (true, src.childrenBegin)
  else if pos ≠ .END ∧ pos ≠ src.childrenEnd then
    (true, pos)
  else
    (false, .END)

end RecordStorage

/-! ## The iterator -/

/-- The iterator of a record (`IterAdapter<ElmIter, const Record*>`). -/
structure RecordIter (VAL : Type u) where
  /-- The record, if any. -/
  source_ : Option (RecordStorage VAL)
  /-- The raw position. -/
  pos_ : ElmIter

namespace RecordIter

/-- `check`: asks the record whether the position is valid; this may adjust the position. -/
def check (it : RecordIter VAL) : Bool × RecordIter VAL :=
  match it.source_ with
  | none => (false, it)
  | some src => ((src.checkPoint it.pos_).1, ⟨src, (src.checkPoint it.pos_).2⟩)

/-- `isValid`. -/
def isValid (it : RecordIter VAL) : Bool := it.check.1

/-- `operator*`: the element; without result when the iteration is exhausted, which throws, or when
the position refers to no element. -/
def deref (it : RecordIter VAL) : Option VAL :=
  if it.isValid then it.source_.bind fun src => src.deref it.check.2.pos_ else none

/-- `operator++`: throws when the iteration is exhausted. -/
def next (it : RecordIter VAL) : Option (RecordIter VAL) :=
  if it.isValid then
    it.source_.map fun src => (RecordIter.check ⟨src, it.check.2.pos_.iterNext⟩).2
  else none

/-- The default constructed iterator. -/
def done : RecordIter VAL := ⟨none, .END⟩

/-- The iterator as a state core. -/
def core : StateCore (RecordIter VAL) VAL where
  checkPoint := isValid
  yield := deref
  iterNext := next

end RecordIter

namespace RecordStorage

/-- The iterator built at a position, which is checked at once. -/
def iterAt (src : RecordStorage VAL) (pos : ElmIter) : RecordIter VAL := (RecordIter.check ⟨src, pos⟩).2

/-- `Record::begin`. -/
def begin (src : RecordStorage VAL) : RecordIter VAL :=
  src.iterAt (if src.attribs_.elms.isEmpty then src.childrenBegin else src.attribsBegin)

/-- The condition under which the end of the iteration is detected: there are children, or no
attributes either. -/
def Closed (src : RecordStorage VAL) : Prop := src.attribs_.elms = [] ∨ src.children_.elms ≠ []

/-! ## The positions reached -/

variable (src : RecordStorage VAL) {pos : ElmIter} {xs : List VAL} {idx : ℕ}

theorem attribsEnd_eq (h : src.attribs_.elms ≠ []) : src.attribsEnd = .attrib src.attribs_.elms.length := by
  simp [attribsEnd, src.attribs_.allocated_of_elms h]

theorem childrenEnd_eq (h : src.children_.elms ≠ []) : src.childrenEnd = .child src.children_.elms.length := by
  simp [childrenEnd, src.children_.allocated_of_elms h]

theorem attrib_ne_childrenEnd : ElmIter.attrib idx ≠ src.childrenEnd := by
  unfold childrenEnd
  split <;> simp

theorem child_ne_attribsEnd : ElmIter.child idx ≠ src.attribsEnd := by
  unfold attribsEnd
  split <;> simp

theorem checkPoint_attrib (h : idx < src.attribs_.elms.length) :
    src.checkPoint (.attrib idx) = (true, .attrib idx) := by
  have hattribs : src.attribs_.elms ≠ [] := ne_nil_of_length_pos (by omega)
  have hbefore : idx ≠ src.attribs_.elms.length := by omega
  simp [checkPoint, src.attribsEnd_eq hattribs, hbefore, src.attrib_ne_childrenEnd]

theorem checkPoint_attribsEnd (hattribs : src.attribs_.elms ≠ []) (hchildren : src.children_.elms ≠ []) :
    src.checkPoint (.attrib src.attribs_.elms.length) = (true, .child 0) := by
  simp [checkPoint, src.attribsEnd_eq hattribs, hchildren, childrenBegin,
    src.children_.allocated_of_elms hchildren]

/-- Without children the end of the attributes is taken for a valid position. -/
theorem checkPoint_attribsEnd_of_no_children (hchildren : src.children_.elms = []) :
    src.checkPoint (.attrib src.attribs_.elms.length) = (true, .attrib src.attribs_.elms.length) := by
  simp [checkPoint, hchildren, src.attrib_ne_childrenEnd]

theorem checkPoint_child (h : idx < src.children_.elms.length) :
    src.checkPoint (.child idx) = (true, .child idx) := by
  have hchildren : src.children_.elms ≠ [] := ne_nil_of_length_pos (by omega)
  have hbefore : idx ≠ src.children_.elms.length := by omega
  simp [checkPoint, src.childrenEnd_eq hchildren, hbefore, src.child_ne_attribsEnd]

theorem checkPoint_childrenEnd : src.checkPoint src.childrenEnd = (false, .END) := by
  unfold checkPoint childrenEnd
  split
  · have hother : ElmIter.child src.children_.elms.length ≠ src.attribsEnd := src.child_ne_attribsEnd
    simp [hother]
  · simp

theorem delivers_of_invalid (h : (src.checkPoint pos).1 = false) :
    RecordIter.core.Delivers (src.iterAt pos) xs ↔ xs = [] := by
  have hend : src.checkPoint pos = (false, .END) := by
    unfold checkPoint at h ⊢
    split at h
    · cases h
    · split at h
      · cases h
      · next hnext hvalid => rw [if_neg hnext, if_neg hvalid]
  have hdefault : src.checkPoint .END = (false, .END) := by simp [checkPoint]
  apply StateCore.delivers_of_exhausted
  simp [RecordIter.core, RecordIter.isValid, iterAt, RecordIter.check, hend, hdefault]

theorem delivers_of_valid (h : src.checkPoint pos = (true, pos)) : RecordIter.core.Delivers (src.iterAt pos) xs ↔
    ∃ a as, src.deref pos = some a ∧ RecordIter.core.Delivers (src.iterAt pos.iterNext) as ∧ xs = a :: as := by
  have hvalid : RecordIter.core.checkPoint (src.iterAt pos) = true := by
    simp [RecordIter.core, RecordIter.isValid, iterAt, RecordIter.check, h]
  have hyield : RecordIter.core.yield (src.iterAt pos) = src.deref pos := by
    simp [RecordIter.core, RecordIter.deref, RecordIter.isValid, iterAt, RecordIter.check, h]
  have hnext : RecordIter.core.iterNext (src.iterAt pos) = some (src.iterAt pos.iterNext) := by
    simp [RecordIter.core, RecordIter.next, RecordIter.isValid, iterAt, RecordIter.check, h]
  rw [StateCore.delivers_of_valid hvalid, hyield, hnext]
  constructor
  · rintro ⟨a, t, as, ha, ht, hrest, rfl⟩
    cases ht
    exact ⟨a, as, ha, hrest, rfl⟩
  · rintro ⟨a, as, ha, hrest, rfl⟩
    exact ⟨a, _, as, ha, rfl, hrest, rfl⟩

theorem delivers_children (hchildren : src.children_.elms ≠ []) (hidx : idx ≤ src.children_.elms.length) :
    RecordIter.core.Delivers (src.iterAt (.child idx)) (src.children_.elms.drop idx) := by
  -- on the number of the children from there on
  induction hn : src.children_.elms.length - idx generalizing idx with
  | zero =>
    obtain rfl : idx = src.children_.elms.length := by omega
    rw [← src.childrenEnd_eq hchildren, src.delivers_of_invalid (by rw [src.checkPoint_childrenEnd])]
    simp
  | succ n ih =>
    have hlt : idx < src.children_.elms.length := by omega
    rw [src.delivers_of_valid (src.checkPoint_child hlt)]
    exact ⟨_, _, getElem?_eq_getElem hlt, ih hlt (by omega), drop_eq_getElem_cons hlt⟩

theorem delivers_attribs (hattribs : src.attribs_.elms ≠ []) (hchildren : src.children_.elms ≠ [])
    (hidx : idx ≤ src.attribs_.elms.length) : RecordIter.core.Delivers (src.iterAt (.attrib idx))
    (src.attribs_.elms.drop idx ++ src.children_.elms) := by
  induction hn : src.attribs_.elms.length - idx generalizing idx with
  | zero =>
    obtain rfl : idx = src.attribs_.elms.length := by omega
    have hfirst : src.checkPoint (.child 0) = (true, .child 0) :=
      src.checkPoint_child (length_pos_iff.mpr hchildren)
    have hswitch : src.iterAt (.attrib src.attribs_.elms.length) = src.iterAt (.child 0) := by
      simp [iterAt, RecordIter.check, src.checkPoint_attribsEnd hattribs hchildren, hfirst]
    rw [hswitch]
    simpa using src.delivers_children hchildren (Nat.zero_le _)
  | succ n ih =>
    have hlt : idx < src.attribs_.elms.length := by omega
    rw [src.delivers_of_valid (src.checkPoint_attrib hlt)]
    refine ⟨_, _, getElem?_eq_getElem hlt, ih hlt (by omega), ?_⟩
    rw [drop_eq_getElem_cons hlt, cons_append]

/-- Without children, an iteration which starts at an attribute runs behind the end of the attributes. -/
theorem not_delivers_attribs (hchildren : src.children_.elms = []) (hidx : idx ≤ src.attribs_.elms.length) :
    ¬ RecordIter.core.Delivers (src.iterAt (.attrib idx)) xs := by
  induction hn : src.attribs_.elms.length - idx generalizing idx xs with
  | zero =>
    obtain rfl : idx = src.attribs_.elms.length := by omega
    rw [src.delivers_of_valid (src.checkPoint_attribsEnd_of_no_children hchildren)]
    rintro ⟨a, as, ha, -⟩
    simp [deref] at ha
  | succ n ih =>
    have hlt : idx < src.attribs_.elms.length := by omega
    rw [src.delivers_of_valid (src.checkPoint_attrib hlt)]
    rintro ⟨a, as, -, hrest, -⟩
    exact ih hlt (by omega) hrest

/-! ## The contents delivered -/

/-- Attributes followed by children. -/
def contents : List VAL := src.attribs_.elms ++ src.children_.elms

/-- The iteration delivers attributes and children if the record is closed. -/
theorem delivers_contents (h : src.Closed) : RecordIter.core.Delivers src.begin src.contents := by
  unfold begin contents
  rcases h with hattribs | hchildren
  · rw [hattribs, isEmpty_nil, if_pos rfl]
    by_cases hchildren : src.children_.elms = []
    · -- begin and end of the children are the same position, whether or not there is storage
      have hend : src.childrenBegin = src.childrenEnd := by simp [childrenBegin, childrenEnd, hchildren]
      rw [hend, src.delivers_of_invalid (by rw [src.checkPoint_childrenEnd])]
      exact hchildren
    · have hbegin : src.childrenBegin = .child 0 := by
        simp [childrenBegin, src.children_.allocated_of_elms hchildren]
      rw [hbegin]
      exact src.delivers_children hchildren (Nat.zero_le _)
  · by_cases hattribs : src.attribs_.elms = []
    · have hbegin : src.childrenBegin = .child 0 := by
        simp [childrenBegin, src.children_.allocated_of_elms hchildren]
      rw [hattribs, hbegin]
      exact src.delivers_children hchildren (Nat.zero_le _)
    · have hbegin : src.attribsBegin = .attrib 0 := by
        simp [attribsBegin, src.attribs_.allocated_of_elms hattribs]
      rw [if_neg (by simpa using hattribs), hbegin]
      exact src.delivers_attribs hattribs hchildren (Nat.zero_le _)

/-- Only the iteration over a closed record delivers anything. -/
theorem closed_of_delivers (h : RecordIter.core.Delivers src.begin xs) : src.Closed := by
  by_contra hopen
  obtain ⟨hattribs, hchildren⟩ := not_or.mp hopen
  have hbegin : src.attribsBegin = .attrib 0 := by
    simp [attribsBegin, src.attribs_.allocated_of_elms hattribs]
  rw [begin, if_neg (by simpa using hattribs), hbegin] at h
  exact src.not_delivers_attribs (not_not.mp hchildren) (Nat.zero_le _) h

end RecordStorage

end Lumiera.Lib.Diff
