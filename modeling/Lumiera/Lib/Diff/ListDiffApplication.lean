import Mathlib.Data.List.Basic

/-! # The list diff language and its application (`lib/diff/list-diff-application.hpp`)

A list diff is a sequence of `DiffStep`s: a verb plus the element it talks about. Applying it to
a target sequence sets the existing content aside and consumes it step by step, while the altered
content is built up in the emptied target. Elements are moved over, so the consumed original is
left with waste; what a moved-from element looks like is not specified, and appears here as an
arbitrary function `husk`. -/

namespace Lumiera.Lib.Diff

universe u

/-! ## The language (`ListDiffLanguage`) -/

/-- The verbs of the list diff language. -/
inductive Verb
  /-- Insert the given element at the current position of the result. -/
  | ins
  /-- Remove the next element of the old sequence. -/
  | del
  /-- Accept the next element of the old sequence into the result. -/
  | pick
  /-- Fetch the element from further down in the old sequence. -/
  | find
  /-- Pass the place of an element fetched earlier. -/
  | skip
  deriving DecidableEq, Repr

/-- One step of a diff: a verb together with the element it mentions. -/
structure DiffStep (E : Type u) where
  verb : Verb
  elm : E
  deriving DecidableEq, Repr

namespace DiffStep

variable {E : Type u}

/-- Token generator `token.ins`. -/
def ins (elm : E) : DiffStep E := ⟨.ins, elm⟩
/-- Token generator `token.del`. -/
def del (elm : E) : DiffStep E := ⟨.del, elm⟩
/-- Token generator `token.pick`. -/
def pick (elm : E) : DiffStep E := ⟨.pick, elm⟩
/-- Token generator `token.find`. -/
def find (elm : E) : DiffStep E := ⟨.find, elm⟩
/-- Token generator `token.skip`. -/
def skip (elm : E) : DiffStep E := ⟨.skip, elm⟩

end DiffStep

/-! ## Errors -/

/-- The errors raised while applying a list diff, with the data shown in their messages. -/
inductive DiffError (E : Type u)
  /-- `__expect_in_target` at the end of the target. -/
  | noFurtherElements (oper : String) (elm : E)
  /-- `__expect_in_target` on another element. -/
  | otherElement (oper : String) (elm found : E)
  /-- `__expect_further_elements`. -/
  | prematureEnd (elm : E)
  /-- `__expect_found`. -/
  | notFound (elm : E)
  /-- `completeDiffApplication` with unconsumed source data. -/
  | notConsumed (elm : E)
  deriving DecidableEq, Repr

namespace DiffError

variable {E : Type u}

/-- The message of the exception, for elements rendered by `toString`. -/
def message [ToString E] : DiffError E → String
  | noFurtherElements oper elm =>
    "Unable to " ++ oper ++ " element " ++ toString elm ++ " from target as demanded; "
      ++ "no (further) elements in target sequence"
  | otherElement oper elm found =>
    "Unable to " ++ oper ++ " element " ++ toString elm ++ " from target as demanded; "
      ++ "found element " ++ toString found ++ " on current target position instead"
  | prematureEnd elm =>
    "Premature end of target sequence, still expecting element " ++ toString elm ++ "; "
      ++ "unable to apply diff further."
  | notFound elm =>
    "Premature end of sequence; unable to locate element " ++ toString elm
      ++ " in the remainder of the target."
  | notConsumed elm =>
    "Not all source data consumed after diff application. Element " ++ toString elm
      ++ " waiting to be consumed"

end DiffError

/-! ## The application strategy for a vector -/

/-- State of a `DiffApplicationStrategy<vector<E>>` while it applies a diff. -/
structure DiffApplication (E : Type u) where
  /-- The old content, swapped aside (`orig_`). -/
  orig : List E
  /-- The target, rebuilt from scratch (`seq_`). -/
  seq : List E
  /-- Position in the old content (`pos_`). -/
  pos : Nat
  deriving DecidableEq, Repr

namespace DiffApplication

variable {E : Type u}

/-- `initDiffApplication` on a fresh strategy: the content of the target is swapped aside. -/
def initDiffApplication (target : List E) : DiffApplication E := ⟨target, [], 0⟩

/-- Is all of the old content consumed? -/
def endOfTarget (a : DiffApplication E) : Bool := a.pos == a.orig.length

variable [DecidableEq E]

/-- The next element of the old content, required to be `elm`. -/
def expectInTarget (a : DiffApplication E) (elm : E) (oper : String) : Except (DiffError E) E :=
  match a.orig[a.pos]? with
  | none => .error (.noFurtherElements oper elm)
  | some found => if found = elm then .ok found else .error (.otherElement oper elm found)

/-- `std::find(pos_, orig_.end(), elm)`. -/
def findFromPos (a : DiffApplication E) (elm : E) : Option Nat :=
  ((a.orig.drop a.pos).findIdx? (· = elm)).map (a.pos + ·)

/-- `ins`: the given element becomes the next element of the result. -/
def ins (a : DiffApplication E) (elm : E) : Except (DiffError E) (DiffApplication E) :=
  .ok { a with seq := a.seq ++ [elm] }

/-- `del`: the next element of the old content is dropped. -/
def del (a : DiffApplication E) (elm : E) : Except (DiffError E) (DiffApplication E) := do
  let _ ← a.expectInTarget elm "remove"
  return { a with pos := a.pos + 1 }

/-- `pick`: the next element of the old content is moved into the result. -/
def pick (husk : E → E) (a : DiffApplication E) (elm : E) :
    Except (DiffError E) (DiffApplication E) := do
  let found ← a.expectInTarget elm "pick"
  return { orig := a.orig.set a.pos (husk found), seq := a.seq ++ [found], pos := a.pos + 1 }

/-- `skip`: assume the actual content has been moved away by a previous `find`. -/
def skip (a : DiffApplication E) (elm : E) : Except (DiffError E) (DiffApplication E) :=
  if a.endOfTarget then .error (.prematureEnd elm) else .ok { a with pos := a.pos + 1 }

/-- `find`: the first match in the remainder is moved into the result; the waste left there is
expected to be cleaned up by a later `skip`. -/
def find (husk : E → E) (a : DiffApplication E) (elm : E) :
    Except (DiffError E) (DiffApplication E) :=
  if a.endOfTarget then .error (.prematureEnd elm) else
    match a.findFromPos elm with
    | none => .error (.notFound elm)
    | some k => .ok { a with orig := a.orig.set k (husk elm), seq := a.seq ++ [elm] }

/-- Apply a single step: invoke the handler of its verb. -/
def applyStep (husk : E → E) (a : DiffApplication E) (step : DiffStep E) :
    Except (DiffError E) (DiffApplication E) :=
  match step.verb with
  | .ins => a.ins step.elm
  | .del => a.del step.elm
  | .pick => a.pick husk step.elm
  | .find => a.find husk step.elm
  | .skip => a.skip step.elm

/-- Apply the steps of a diff one after the other. -/
def applyAll (husk : E → E) (a : DiffApplication E) :
    List (DiffStep E) → Except (DiffError E) (DiffApplication E)
  | [] => .ok a
  | step :: diff => do applyAll husk (← a.applyStep husk step) diff

omit [DecidableEq E] in
/-- `completeDiffApplication`: all of the old content must be consumed; yields the target. -/
def completeDiffApplication (a : DiffApplication E) : Except (DiffError E) (List E) :=
  match a.orig[a.pos]? with
  | some elm => .error (.notConsumed elm)
  | none => .ok a.seq

/-- `DiffApplicator::consume`: apply the whole diff to the target sequence. -/
def consume (husk : E → E) (target : List E) (diff : List (DiffStep E)) :
    Except (DiffError E) (List E) := do
  (← applyAll husk (initDiffApplication target) diff).completeDiffApplication

/-! ## What the handlers do when their expectation is met -/

variable {a : DiffApplication E} {elm : E}

theorem expectInTarget_of_getElem? (oper : String) (h : a.orig[a.pos]? = some elm) :
    a.expectInTarget elm oper = .ok elm := by
  simp [expectInTarget, h]

theorem del_of_getElem? (h : a.orig[a.pos]? = some elm) :
    a.del elm = .ok { a with pos := a.pos + 1 } := by
  rw [del, expectInTarget_of_getElem? _ h]
  rfl

theorem pick_of_getElem? (husk : E → E) (h : a.orig[a.pos]? = some elm) :
    a.pick husk elm = .ok { orig := a.orig.set a.pos (husk elm), seq := a.seq ++ [elm], pos := a.pos + 1 } := by
  rw [pick, expectInTarget_of_getElem? _ h]
  rfl

omit [DecidableEq E] in
theorem endOfTarget_eq_false (h : a.pos < a.orig.length) : a.endOfTarget = false := by
  simp [endOfTarget, Nat.ne_of_lt h]

omit [DecidableEq E] in
theorem skip_of_lt (elm : E) (h : a.pos < a.orig.length) : a.skip elm = .ok { a with pos := a.pos + 1 } := by
  simp [skip, endOfTarget_eq_false h]

theorem find_of_getElem? (husk : E → E) {k : Nat}
    (hk : a.pos ≤ k) (h : a.orig[k]? = some elm) :
    ∃ m, a.pos ≤ m ∧ a.orig[m]? = some elm ∧
      a.find husk elm = .ok { a with orig := a.orig.set m (husk elm), seq := a.seq ++ [elm] } := by
  have hlen : k < a.orig.length := (List.getElem?_eq_some_iff.mp h).1
  have hmem : elm ∈ a.orig.drop a.pos := by
    refine List.mem_of_getElem? (i := k - a.pos) ?_
    rw [List.getElem?_drop, Nat.add_sub_cancel' hk, h]
  obtain ⟨m, hm⟩ : ∃ m, (a.orig.drop a.pos).findIdx? (· = elm) = some m := by
    rw [← Option.isSome_iff_exists, List.findIdx?_isSome]
    exact List.any_eq_true.mpr ⟨elm, hmem, by simp⟩
  refine ⟨a.pos + m, Nat.le_add_right _ _, ?_, ?_⟩
  · obtain ⟨hlt, hval, -⟩ := List.findIdx?_eq_some_iff_getElem.mp hm
    rw [← List.getElem?_drop, List.getElem?_eq_getElem hlt]
    simpa using hval
  · rw [find, endOfTarget_eq_false (Nat.lt_of_le_of_lt hk hlen), findFromPos, hm]
    rfl

end DiffApplication

end Lumiera.Lib.Diff
