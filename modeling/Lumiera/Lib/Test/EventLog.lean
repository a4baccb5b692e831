import Mathlib.Data.List.Infix
import Lumiera.Lib.IterChainSearch
import Lumiera.Base.SearchOrder

/-! # Matching an event log (`lib/test/event-log.cpp`)

The log is a sequence of records, beginning with a header. A match expression is built step by step: each call
adds a condition to the chained search, or refines the one added last, and the query is evaluated right away.
Conditions are tested on one entry each. -/

namespace Lumiera.Lib.Test

/-! ## Entries -/

/-- The blanks which are trimmed (`boost::is_space` in the default locale). -/
def isSpace (c : Char) : Bool := c = ' ' || ('\t' ≤ c && c ≤ '\r')

/-- `util::trim` -/
def trim (text : List Char) : List Char := ((text.dropWhile isSpace).reverse.dropWhile isSpace).reverse

/-- `contains (str, val)`: a substring match. -/
def contains (str val : String) : Bool := val.toList <:+: str.toList

/-- **An entry** of the log (`Record<string>`), with attributes given as `key = val`. -/
structure Entry where
  type_ : String
  attribs_ : List String
  children_ : List String
  deriving DecidableEq, Repr

/-- `extractKey`: the text in front of the first equals sign. -/
def extractKey (v : String) : String :=
  if '=' ∈ v.toList then String.ofList (trim (v.toList.takeWhile (· != '='))) else ""

/-- `extractVal`: the text behind the first equals sign. -/
def extractVal (v : String) : String :=
  if '=' ∈ v.toList then String.ofList (trim ((v.toList.dropWhile (· != '=')).drop 1)) else v

/-- `join`, delimited by comma. -/
def join (texts : List String) : String := ", ".intercalate texts

namespace Entry

def hasAttribute (entry : Entry) (key : String) : Bool := entry.attribs_.any fun v => key == extractKey v

/-- `get`: raises an error when there is no such attribute. -/
def get (entry : Entry) (key : String) : Option String :=
  (entry.attribs_.find? fun v => key == extractKey v).map extractVal

/-- `operator string` -/
def render (entry : Entry) : String :=
  "Rec(" ++ (if entry.type_ = "NIL" then "" else entry.type_)
    ++ (if entry.attribs_ = [] then ""
        else "| " ++ join (entry.attribs_.map fun v => extractKey v ++ " = " ++ extractVal v) ++ " ")
    ++ (if entry.children_ = [] then "" else "|\x7b" ++ join entry.children_ ++ "\x7d")
    ++ ")"

/-- The first argument matches (`not isnil (entry.scope()) and contains (*entry.scope(), match)`). -/
def firstContains (entry : Entry) (val : String) : Bool :=
  match entry.children_ with
  | [] => false
  | arg :: _ => contains arg val

end Entry

/-! ## Elementary matchers -/

/-- The conditions to search for. A regular expression is given by its text and by what it finds. -/
inductive SearchCond
  | find (match' : String)
  | findRegExp (regExpDef : String) (search : String → Bool)
  | findEvent (match' : String)
  | findEventOf (classifier match' : String)
  | findCall (match' : String)

/-- Whether an entry meets the condition, if this does not raise an exception. -/
def SearchCond.test (entry : Entry) : SearchCond → Option Bool
  | find val => some (contains entry.render val)
  | findRegExp _ search => some (search entry.render)
  | findEvent val =>
    some (["event", "error", "create", "destroy", "logJoin"].contains entry.type_ && entry.firstContains val)
  | findEventOf classifier val =>
    some ((entry.type_ == classifier ||
      (entry.hasAttribute "ID" && (entry.get "ID").any fun id => contains id classifier)) &&
        entry.firstContains val)
  | findCall val =>
    -- other than above, the attribute is accessed without asking for it
    if entry.type_ = "call" then (entry.get "fun").map fun function => contains function val else some false

/-- `matchArguments`: a substring match for each of the arguments, the numbers of which have to be the same. -/
def matchArguments : List String → List String → Bool
  | [], scope => scope.isEmpty
  | _ :: _, [] => false
  | val :: argSeq, arg :: scope => contains arg val && matchArguments argSeq scope

/-- `matchArgsRegExp`: each regular expression consumes arguments as long as it matches; all arguments have to be
consumed then. -/
def matchArgsRegExp : List (String → Bool) → List String → Bool
  | [], scope => scope.isEmpty
  | rex :: regExpSeq, scope => if scope.isEmpty then false else matchArgsRegExp regExpSeq (scope.dropWhile rex)

/-- The conditions to refine a search, named as they are called. -/
inductive RefineCond
  | arg (argSeq : List String)
  | argMatch (regExpSeq : List (String × (String → Bool)))
  | argPos (idx : ℕ) (match' : String)
  | type (typeID : String)
  | key (key : String)
  | attrib (key valueMatch : String)
  | id (classifier : String)
  | on (targetID : String)

/-- `matchAttribute`: the attribute is present, and its value matches. -/
def matchAttribute (entry : Entry) (key valueMatch : String) : Bool :=
  entry.hasAttribute key && (entry.get key).any fun val => contains val valueMatch

/-- Whether an entry meets the condition. -/
def RefineCond.test (entry : Entry) : RefineCond → Bool
  | arg argSeq => matchArguments argSeq entry.children_
  | argMatch regExpSeq => matchArgsRegExp (regExpSeq.map Prod.snd) entry.children_
  | argPos idx val => (entry.children_[idx]?).any fun child => contains child val
  | type typeID => contains entry.type_ typeID
  | key name => entry.hasAttribute name
  | attrib name valueMatch => matchAttribute entry name valueMatch
  | id classifier => matchAttribute entry "ID" classifier
  | on targetID => matchAttribute entry "this" targetID

/-- The description of a condition, for diagnostics. -/
def SearchCond.matchSpec : SearchCond → String
  | find val => "match(\"" ++ val ++ "\")"
  | findRegExp regExpDef _ => "find-RegExp(\"" ++ regExpDef ++ "\")"
  | findEvent val => "match-event(\"" ++ val ++ "\")"
  | findEventOf classifier val => "match-event(ID=\"" ++ classifier ++ "\", \"" ++ val ++ "\")"
  | findCall val => "match-call(\"" ++ val ++ "\")"

/-- The description of a refinement. -/
def RefineCond.matchSpec : RefineCond → String
  | arg argSeq => "match-arguments(" ++ join argSeq ++ ")"
  | argMatch regExpSeq => "match-args-RegExp(" ++ join (regExpSeq.map Prod.fst) ++ ")"
  | argPos idx val => "match-argument([" ++ toString idx ++ "]=" ++ val ++ ")"
  | type typeID => "match-type(" ++ typeID ++ ")"
  | key name => "ensure-attribute(" ++ name ++ ")"
  | attrib name valueMatch => "match-attribute(" ++ name ++ "=\"" ++ valueMatch ++ "\")"
  | id classifier => "match-ID(\"" ++ classifier ++ "\")"
  | on targetID => "match-this(\"" ++ targetID ++ "\")"

/-! ## The log and its evaluation -/

/-- **The log**: a header with the ID of the log comes first. -/
structure EventLog where
  header : Entry
  entries : List Entry
  hasID : header.hasAttribute "this" = true

/-- All entries (`log_`). -/
def EventLog.log_ (log : EventLog) : List Entry := log.header :: log.entries

/-- The filter used as search engine. -/
abbrev LogFilter (log : EventLog) : Type := MutableFilter log.log_

/-- **The ongoing evaluation** (`EventMatch`). -/
structure EventMatch (log : EventLog) where
  solution_ : IterChainSearch (LogFilter log)
  /-- The last match, for diagnostics. -/
  lastMatch_ : String
  /-- Whether this is a positive or a negative query. -/
  look_for_match_ : Bool
  /-- How the underlying query has failed. -/
  violation_ : String

inductive Direction
  | FORWARD | BACKWARD | CURRENT
  deriving DecidableEq, Repr

/-- The filter is reconfigured to find the next element which meets a condition, in some direction. -/
def searchStep {log : EventLog} (searchCond : Entry → Option Bool) (direction : Direction)
    (filter : LogFilter log) : Option (LogFilter log) :=
  if direction = .CURRENT then filter.setNewFilter searchCond
  else
    -- deactivate any filtering temporarily, and move one step in the required direction
    ((filter.reverse (direction = .BACKWARD)).disableFilter.iterNext).bind fun filter =>
      filter.setNewFilter searchCond

/-- The filter is reconfigured to meet a further condition. -/
def refineStep {log : EventLog} (additionalCond : Entry → Option Bool) (filter : LogFilter log) :
    Option (LogFilter log) :=
  filter.andFilter additionalCond

namespace EventMatch

variable {log : EventLog}

/-- The search mechanism, in its pristine state. -/
def buildSearchFilter (log : EventLog) : IterChainSearch (LogFilter log) where
  current := ⟨⟨0, false, Nat.zero_le _⟩, none⟩
  below := []
  stepChain_ := []

/-- `EventMatch`, for positive or negative queries. -/
def create (log : EventLog) (look_for_match : Bool) : EventMatch log where
  solution_ := buildSearchFilter log
  lastMatch_ := "HEAD " ++ (log.header.get "this").getD ""
  look_for_match_ := look_for_match
  violation_ := ""

/-- `foundSolution` -/
def foundSolution (m : EventMatch log) : Bool := m.solution_.current.checkPoint

/-- The entry found. -/
def found (m : EventMatch log) : Option Entry :=
  if h : m.solution_.current.cursor.checkPoint = true then some (m.solution_.current.cursor.yield log.log_ h)
  else none

/-- `evaluateQuery` -/
def evaluateQuery (m : EventMatch log) (matchSpec : String) (rel : String) : EventMatch log :=
  -- already failed, no further check necessary
  if m.look_for_match_ = true ∧ m.violation_ ≠ "" then m
  else match m.found with
    | some entry =>
      let lastMatch := matchSpec ++ " @ " ++ entry.render
        ++ (if m.lastMatch_ = "" then "" else "\n.." ++ rel ++ " " ++ m.lastMatch_)
      { m with
        lastMatch_ := lastMatch
        violation_ := if m.look_for_match_ then m.violation_ else "FOUND at least " ++ lastMatch }
    | none =>
      { m with
        violation_ :=
          if m.look_for_match_ then "FAILED to " ++ matchSpec ++ "\n.." ++ rel ++ " " ++ m.lastMatch_
          else "" }

/-- A condition is attached to the search engine (`attachNextSerchStep`). -/
def attachNextSearchStep (m : EventMatch log) (searchCond : SearchCond) (direction : Direction) (rel : String) :
    Option (EventMatch log) :=
  (m.solution_.addStep (MutableFilter.core log.log_) MutableFilter.isDisabled
    (searchStep (fun entry => searchCond.test entry) direction)).map fun solution =>
      ({ m with solution_ := solution } : EventMatch log).evaluateQuery searchCond.matchSpec rel

/-- The search is refined (`refineSerach`). -/
def refineSearch (m : EventMatch log) (additionalCond : RefineCond) : Option (EventMatch log) :=
  (m.solution_.addStep (MutableFilter.core log.log_) MutableFilter.isDisabled
    (refineStep fun entry => some (additionalCond.test entry))).map fun solution =>
      ({ m with solution_ := solution } : EventMatch log).evaluateQuery additionalCond.matchSpec "after"

end EventMatch

/-- The calls to build a match expression, after the first one. -/
inductive MatchCall
  | before (cond : SearchCond)
  | after (cond : SearchCond)
  | refine (cond : RefineCond)

/-- How a match expression begins: with `verify`, `verifyMatch`, `verifyEvent` or `verifyCall`, or with
`ensureNot`, which is followed by a text. -/
inductive MatchStart
  | verify (cond : SearchCond)
  | ensureNot (match' : String)

namespace EventLog

variable (log : EventLog)

/-- The new matcher starts linear search from the first log element. -/
def start : MatchStart → Option (EventMatch log)
  | .verify cond => (EventMatch.create log true).attachNextSearchStep cond .CURRENT "after"
  -- flip logic; fail if match succeeds
  | .ensureNot val => (EventMatch.create log false).attachNextSearchStep (.find val) .CURRENT "after"

/-- One more call. -/
def next (m : EventMatch log) : MatchCall → Option (EventMatch log)
  | .before cond => m.attachNextSearchStep cond .FORWARD "after"
  | .after cond => m.attachNextSearchStep cond .BACKWARD "before"
  | .refine cond => m.refineSearch cond

/-- **The evaluation of a match expression**, if this does not raise an exception (`operator bool`). -/
def evaluate (first : MatchStart) (calls : List MatchCall) : Option Bool :=
  ((log.start first).bind fun m => calls.foldlM log.next m).map fun m => m.violation_ = ""

end EventLog

/-! ## What a match expression tells (`lib/test/event-log.cpp`)

A match expression asks for positions in the log, one for each step, which lie in the direction of the step, and
where the entry meets the condition of the step together with its refinements. The search comes to the right
answer, if it comes to an answer at all: the condition on a call accesses the attribute `"fun"` without asking for
it, and raises an exception at an entry which has none. This happens unless the search finds a complete match
before. -/

open List

/-! ## Matches -/

/-- A step of a match expression, with the refinements attached to it. -/
structure MatchStep where
  backwards : Bool
  cond : SearchCond
  refinements : List RefineCond

namespace MatchStep

/-- The position is in the direction of the step, from the position matched before. -/
def Leads (step : MatchStep) : Option ℕ → ℕ → Prop
  | none, _ => True
  | some i, j => if step.backwards then j < i else i < j

/-- The entry meets the condition of the step, and all refinements. -/
def Accepts (step : MatchStep) (entry : Entry) : Prop :=
  step.cond.test entry = some true ∧ ∀ additionalCond ∈ step.refinements, additionalCond.test entry = true

/-- The condition of the step can not be evaluated for the entry. -/
def Fails (step : MatchStep) (entry : Entry) : Prop := step.cond.test entry = none

end MatchStep

/-- The first condition of a match expression. -/
def MatchStart.cond : MatchStart → SearchCond
  | .verify cond => cond
  | .ensureNot val => .find val

/-- Whether a match is looked for. -/
def MatchStart.positive : MatchStart → Bool
  | .verify _ => true
  | .ensureNot _ => false

/-- What is demanded, given that there is a match. -/
def MatchStart.Demands (first : MatchStart) (found : Prop) : Prop :=
  match first with
  | .verify _ => found
  | .ensureNot _ => ¬ found

/-- The refinements up to the next step, and the steps to follow. -/
def attach : List MatchCall → List RefineCond × List MatchStep
  | [] => ([], [])
  | .before cond :: calls => ([], ⟨false, cond, (attach calls).1⟩ :: (attach calls).2)
  | .after cond :: calls => ([], ⟨true, cond, (attach calls).1⟩ :: (attach calls).2)
  | .refine cond :: calls => (cond :: (attach calls).1, (attach calls).2)

/-- **The steps of a match expression.** -/
def matchSteps (first : MatchStart) (calls : List MatchCall) : List MatchStep :=
  ⟨false, first.cond, (attach calls).1⟩ :: (attach calls).2

namespace EventLog

/-- **A match**: for each step a position in its direction, where the entry is accepted. -/
def Matches (log : EventLog) : Option ℕ → List MatchStep → List ℕ → Prop
  | _, [], [] => True
  | prev, step :: steps, i :: solution => step.Leads prev i ∧
      (∃ entry, log.log_[i]? = some entry ∧ step.Accepts entry) ∧ log.Matches (some i) steps solution
  | _, _, _ => False

/-- Positions accepted for the first steps, which lead on to an entry where the condition fails. -/
def Halts (log : EventLog) : Option ℕ → List MatchStep → List ℕ → Prop
  | prev, step :: steps, i :: path => step.Leads prev i ∧ ∃ entry, log.log_[i]? = some entry ∧
      (step.Fails entry ∧ path = [] ∨ step.Accepts entry ∧ log.Halts (some i) steps path)
  | _, _, _ => False

end EventLog

/-- The search tries the one sequence of positions before the other one: at the first difference it is closer to
the position before, in the direction of the step. -/
def TriedBefore : List MatchStep → List ℕ → List ℕ → Prop
  | step :: steps, i :: solution, j :: path => step.Leads (some i) j ∨ i = j ∧ TriedBefore steps solution path
  | _, _, _ => False

/-! ## The choices made by the search -/

/-- The predicate of a step (`remouldFilter`). -/
def withRefinements (predicate : Entry → Option Bool) (refinements : List RefineCond) : Entry → Option Bool :=
  refinements.foldl
    (fun predicate cond => MutableFilter.both predicate fun entry => some (cond.test entry)) predicate

/-- The predicate at a position. -/
def testAt (log : EventLog) (predicate : Entry → Option Bool) (i : ℕ) : Option Bool :=
  (log.log_[i]?).elim (some false) predicate

/-- A step, as a choice among the positions. -/
def MatchStep.choice (log : EventLog) (step : MatchStep) : Choice ℕ where
  candidates prev := match prev with
    | none => if step.backwards then (List.range log.log_.length).reverse else List.range log.log_.length
    | some i => CursorGear.beyond log.log_.length step.backwards i
  test := testAt log (withRefinements step.cond.test step.refinements)
  ahead i j := step.Leads (some i) j
  asymm {i j} := by
    show (if step.backwards then j < i else i < j) → ¬ if step.backwards then i < j else j < i
    split <;> exact Nat.lt_asymm
  sorted prev := by
    show List.Pairwise (fun i j => if step.backwards then j < i else i < j) _
    cases step.backwards with
    | false =>
      cases prev with
      | none => exact pairwise_lt_range
      | some i => exact pairwise_lt_range'
    | true =>
      cases prev with
      | none => exact pairwise_reverse.mpr pairwise_lt_range
      | some i => exact pairwise_reverse.mpr pairwise_lt_range

variable {log : EventLog} {step : MatchStep} {steps : List MatchStep} {prev : Option ℕ} {i : ℕ}
  {predicate : Entry → Option Bool} {refinements : List RefineCond} {entry : Entry}

theorem withRefinements_eq (predicate : Entry → Option Bool) (refinements : List RefineCond) (entry : Entry) :
    withRefinements predicate refinements entry =
      (predicate entry).map fun holds => holds && refinements.all fun cond => cond.test entry := by
  induction refinements generalizing predicate with
  | nil =>
    show predicate entry = _
    cases predicate entry with
    | none => rfl
    | some holds => exact congrArg some (Bool.and_true holds).symm
  | cons cond refinements ih =>
    rw [withRefinements, foldl_cons]
    show withRefinements _ refinements entry = _
    rw [ih, MutableFilter.both]
    cases predicate entry with
    | none => rfl
    | some holds => cases holds <;> rfl

theorem accepts_iff : withRefinements step.cond.test step.refinements entry = some true ↔ step.Accepts entry := by
  rw [withRefinements_eq, Option.map_eq_some_iff]
  constructor
  · rintro ⟨holds, htest, hall⟩
    obtain ⟨rfl, hrefined⟩ := Bool.and_eq_true_iff.mp hall
    exact ⟨htest, all_eq_true.mp hrefined⟩
  · rintro ⟨htest, hrefined⟩
    exact ⟨true, htest, Bool.and_eq_true_iff.mpr ⟨rfl, all_eq_true.mpr hrefined⟩⟩

theorem fails_iff_none : withRefinements step.cond.test step.refinements entry = none ↔ step.Fails entry := by
  rw [withRefinements_eq, Option.map_eq_none_iff, MatchStep.Fails]

theorem mem_candidates (hprev : ∀ i, prev = some i → i < log.log_.length) :
    i ∈ (step.choice log).candidates prev ↔ i < log.log_.length ∧ step.Leads prev i := by
  cases prev with
  | none =>
    show i ∈ (if step.backwards then _ else _) ↔ _
    rw [MatchStep.Leads, and_true]
    split
    · rw [mem_reverse, mem_range]
    · rw [mem_range]
  | some j => exact CursorGear.mem_beyond (hprev j rfl)

theorem testAt_eq (hi : i < log.log_.length) : testAt log predicate i = predicate log.log_[i] := by
  rw [testAt, getElem?_eq_getElem hi]
  rfl

theorem exists_entry_iff {P : Entry → Prop} :
    (∃ entry, log.log_[i]? = some entry ∧ P entry) ↔ ∃ hi : i < log.log_.length, P log.log_[i] := by
  constructor
  · rintro ⟨entry, hentry, hP⟩
    obtain ⟨hi, rfl⟩ := List.getElem?_eq_some_iff.mp hentry
    exact ⟨hi, hP⟩
  · rintro ⟨hi, hP⟩
    exact ⟨_, getElem?_eq_getElem hi, hP⟩

theorem solves_iff {solution : List ℕ} (hprev : ∀ i, prev = some i → i < log.log_.length) :
    Choice.Solves (steps.map (MatchStep.choice log)) prev solution ↔ log.Matches prev steps solution := by
  induction steps generalizing prev solution with
  | nil => cases solution <;> simp [Choice.Solves, EventLog.Matches]
  | cons step steps ih =>
    cases solution with
    | nil => exact ⟨fun ⟨_, _, h, _⟩ => (cons_ne_nil _ _ h.symm).elim, fun h => h.elim⟩
    | cons i solution =>
      rw [EventLog.Matches, exists_entry_iff]
      constructor
      · rintro ⟨j, rest, heq, hmem, htest, hrest⟩
        cases heq
        obtain ⟨hi, hleads⟩ := (mem_candidates hprev).mp hmem
        refine ⟨hleads, ⟨hi, ?_⟩, (ih fun j hj => Option.some.inj hj ▸ hi).mp hrest⟩
        exact accepts_iff.mp ((testAt_eq hi).symm.trans htest)
      · rintro ⟨hleads, ⟨hi, haccepts⟩, hrest⟩
        refine ⟨i, solution, rfl, (mem_candidates hprev).mpr ⟨hi, hleads⟩, ?_, ?_⟩
        · exact (testAt_eq hi).trans (accepts_iff.mpr haccepts)
        · exact (ih fun j hj => Option.some.inj hj ▸ hi).mpr hrest

theorem raises_iff {path : List ℕ} (hprev : ∀ i, prev = some i → i < log.log_.length) :
    Choice.Raises (steps.map (MatchStep.choice log)) prev path ↔ log.Halts prev steps path := by
  induction steps generalizing prev path with
  | nil => cases path <;> exact Iff.rfl
  | cons step steps ih =>
    cases path with
    | nil => exact ⟨fun ⟨_, _, h, _⟩ => (cons_ne_nil _ _ h.symm).elim, fun h => h.elim⟩
    | cons i path =>
      rw [EventLog.Halts, exists_entry_iff]
      constructor
      · rintro ⟨j, rest, heq, hmem, hraised⟩
        cases heq
        obtain ⟨hi, hleads⟩ := (mem_candidates hprev).mp hmem
        refine ⟨hleads, hi, ?_⟩
        rcases hraised with ⟨hnone, hlast⟩ | ⟨htest, hrest⟩
        · exact .inl ⟨fails_iff_none.mp ((testAt_eq hi).symm.trans hnone), hlast⟩
        · exact .inr ⟨accepts_iff.mp ((testAt_eq hi).symm.trans htest),
            (ih fun j hj => Option.some.inj hj ▸ hi).mp hrest⟩
      · rintro ⟨hleads, hi, hraised⟩
        refine ⟨i, path, rfl, (mem_candidates hprev).mpr ⟨hi, hleads⟩, ?_⟩
        rcases hraised with ⟨hfails, hlast⟩ | ⟨haccepts, hrest⟩
        · exact .inl ⟨(testAt_eq hi).trans (fails_iff_none.mpr hfails), hlast⟩
        · exact .inr ⟨(testAt_eq hi).trans (accepts_iff.mpr haccepts),
            (ih fun j hj => Option.some.inj hj ▸ hi).mpr hrest⟩

theorem triedBefore_iff {solution path : List ℕ} :
    Choice.TriedBefore (steps.map (MatchStep.choice log)) solution path ↔ TriedBefore steps solution path := by
  induction steps generalizing solution path with
  | nil => exact Iff.rfl
  | cons step steps ih =>
    cases solution with
    | nil => exact Iff.rfl
    | cons i solution =>
      cases path with
      | nil => exact Iff.rfl
      | cons j path => exact or_congr Iff.rfl (and_congr Iff.rfl ih)

end Lumiera.Lib.Test
