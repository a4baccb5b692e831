import Lumiera.Lib.Test.EventLog

/-! # Evaluation of a match expression (`lib/test/event-log.cpp`)

The solutions left to the chained search are followed through the calls which build a match expression: every call
expands what was found up to then. A refinement goes on from an element found already, which makes no difference
to searching with all refinements from the start. -/

namespace Lumiera.Lib.Test

open List

open MutableFilter (core filtersAt scan)

/-- The places in the log. -/
abbrev LogCursor (log : EventLog) : Type := CursorGear log.log_.length

/-- What is found from an outcome; an exception remains. -/
def onward {α β : Type} (next : α → List (Option β)) (outcome : Option α) : List (Option β) :=
  outcome.elim [none] next

/-- What is found from an entry in some direction. -/
def searchFrom {log : EventLog} (backwards : Bool) (predicate : Entry → Option Bool) (c : LogCursor log) :
    List (Option (LogCursor log)) :=
  if h : (c.reverse backwards).checkPoint = true then scan predicate ((c.reverse backwards).iterNext h)
  else [none]

namespace MatchCall

/-- The predicate of the filter after a call. -/
def predicate (predicate : Entry → Option Bool) : MatchCall → Entry → Option Bool
  | before cond | after cond => fun entry => cond.test entry
  | refine cond => MutableFilter.both predicate fun entry => some (cond.test entry)

/-- The search step added by a call. -/
def searchStep {log : EventLog} : MatchCall → LogFilter log → Option (LogFilter log)
  | before cond => Test.searchStep (fun entry => cond.test entry) .FORWARD
  | after cond => Test.searchStep (fun entry => cond.test entry) .BACKWARD
  | refine cond => refineStep fun entry => some (cond.test entry)

/-- What is found from an entry after a call. -/
def expansion {log : EventLog} (predicate : Entry → Option Bool) :
    MatchCall → LogCursor log → List (Option (LogCursor log))
  | before cond => searchFrom false fun entry => cond.test entry
  | after cond => searchFrom true fun entry => cond.test entry
  | refine cond => scan (MutableFilter.both predicate fun entry => some (cond.test entry))

end MatchCall

/-- **What is found by a sequence of calls**, from what was found before. -/
def runFrom {log : EventLog} (predicate : Entry → Option Bool) :
    List MatchCall → List (Option (LogCursor log)) → List (Option (LogCursor log))
  | [], os => os
  | call :: calls, os => runFrom (call.predicate predicate) calls (os.flatMap (onward (call.expansion predicate)))

variable {log : EventLog} {predicate : Entry → Option Bool} {call : MatchCall} {calls : List MatchCall}
  {os os' : List (Option (LogCursor log))} {m m' : EventMatch log}

/-! ## The search machine -/

/-- A search step expands each filter in the way described by the places found. -/
theorem expandBy_searchStep (predicate : Entry → Option Bool) (call : MatchCall) (c : LogCursor log) :
    (core log.log_).expandBy call.searchStep (some ⟨c, some predicate⟩) =
      filtersAt (call.predicate predicate) (call.expansion predicate c) := by
  have hsearch : ∀ (searchCond : Entry → Option Bool) (direction : Direction), direction ≠ .CURRENT →
      (core log.log_).expandBy (searchStep searchCond direction) (some ⟨c, some predicate⟩) =
        filtersAt searchCond (searchFrom (direction = .BACKWARD) searchCond c) := by
    intro searchCond direction hdirection
    show (core log.log_).following (searchStep searchCond direction ⟨c, some predicate⟩) = _
    rw [searchStep, if_neg hdirection, searchFrom]
    by_cases hvalid : (c.reverse (direction = .BACKWARD)).checkPoint = true
    · have hnext : ((MutableFilter.reverse ⟨c, some predicate⟩ (direction = .BACKWARD)).disableFilter).iterNext =
          some (⟨(c.reverse (direction = .BACKWARD)).iterNext hvalid, none⟩ : LogFilter log) := dif_pos hvalid
      rw [hnext, dif_pos hvalid]
      exact MutableFilter.following_pullFilter searchCond _
    · have hnext : ((MutableFilter.reverse ⟨c, some predicate⟩ (direction = .BACKWARD)).disableFilter).iterNext =
          (none : Option (LogFilter log)) := dif_neg hvalid
      rw [hnext, dif_neg hvalid]
      rfl
  cases call with
  | before cond => exact hsearch _ .FORWARD nofun
  | after cond => exact hsearch _ .BACKWARD nofun
  | refine cond => exact MutableFilter.following_pullFilter _ c

theorem flatMap_expandBy (predicate : Entry → Option Bool) (call : MatchCall) (os : List (Option (LogCursor log))) :
    (filtersAt predicate os).flatMap ((core log.log_).expandBy call.searchStep) = filtersAt (call.predicate predicate)
    (os.flatMap (onward (call.expansion predicate))) := by
  induction os with
  | nil => rfl
  | cons outcome os ih =>
    have hone : (core log.log_).expandBy call.searchStep
        (outcome.map fun c => (⟨c, some predicate⟩ : LogFilter log)) =
        filtersAt (call.predicate predicate) (onward (call.expansion predicate) outcome) := by
      cases outcome with
      | none => rfl
      | some c => exact expandBy_searchStep predicate call c
    rw [filtersAt, map_cons, flatMap_cons, hone]
    show _ ++ (filtersAt predicate os).flatMap _ = _
    rw [ih, flatMap_cons, filtersAt, filtersAt, filtersAt, map_append]

/-- **The state of the evaluation**: what is left to be found, and whether this is what was asked for. -/
structure EventMatch.Pursues (m : EventMatch log) (predicate : Entry → Option Bool)
    (os : List (Option (LogCursor log))) : Prop where
  settled : m.solution_.Settled (core log.log_) MutableFilter.isDisabled
  solutions : m.solution_.solutions (core log.log_) = filtersAt predicate os
  violation : decide (m.violation_ = "") = (m.foundSolution == m.look_for_match_)

theorem head?_of_solutions {solution : IterChainSearch (LogFilter log)}
    (hsettled : solution.Settled (core log.log_) MutableFilter.isDisabled)
    (h : solution.solutions (core log.log_) = filtersAt predicate os) :
    os.head?.map Option.isSome = if solution.current.checkPoint then some true else none := by
  have hhead : (filtersAt predicate os).head?.map Option.isSome = os.head?.map Option.isSome := by
    rcases os with _ | ⟨_ | c, os⟩ <;> rfl
  rw [← hhead, ← h, hsettled.head?_solutions]
  show Option.map _ (if solution.current.checkPoint = true then _ else _) = _
  split <;> rfl

theorem append_ne_empty {text : String} (h : text ≠ "") (more : String) : text ++ more ≠ "" := by
  intro hempty
  have hlength := congrArg String.utf8ByteSize hempty
  rw [String.utf8ByteSize_append] at hlength
  exact h (String.utf8ByteSize_eq_zero_iff.mp (Nat.eq_zero_of_add_eq_zero_right hlength))

/-- Evaluation records a violation unless a match is present or absent, as asked for. -/
theorem violation_evaluateQuery {matchSpec rel : String}
    (hfailed : m.look_for_match_ = true → m.violation_ ≠ "" → m.foundSolution = false) :
    decide ((m.evaluateQuery matchSpec rel).violation_ = "") = (m.foundSolution == m.look_for_match_) := by
  rw [EventMatch.evaluateQuery]
  by_cases hdone : m.look_for_match_ = true ∧ m.violation_ ≠ ""
  · rw [if_pos hdone, decide_eq_false hdone.2, hfailed hdone.1 hdone.2, hdone.1]
    rfl
  · rw [if_neg hdone]
    have hclear : m.look_for_match_ = true → m.violation_ = "" := fun hlook =>
      by_contra fun hne => hdone ⟨hlook, hne⟩
    by_cases hfound : m.solution_.current.cursor.checkPoint = true
    · have hsome : m.found = some (m.solution_.current.cursor.yield log.log_ hfound) := dif_pos hfound
      have hsolution : m.foundSolution = true := hfound
      rw [hsome, hsolution]
      cases hlook : m.look_for_match_ with
      | true => exact decide_eq_true (hclear hlook)
      | false => exact decide_eq_false (append_ne_empty (by decide) _)
    · have hnone : m.found = none := dif_neg hfound
      have hsolution : m.foundSolution = false := Bool.eq_false_iff.mpr hfound
      rw [hnone, hsolution]
      cases m.look_for_match_ with
      | true =>
        have hfailed : "FAILED to " ++ (matchSpec ++ "\n.." ++ rel ++ " " ++ m.lastMatch_) ≠ "" :=
          append_ne_empty (by decide) _
        refine decide_eq_false fun h => hfailed ?_
        rw [← h, if_pos rfl]
        simp only [String.append_assoc]
      | false => rfl

theorem solution_evaluateQuery (m : EventMatch log) (matchSpec rel : String) :
    (m.evaluateQuery matchSpec rel).solution_ = m.solution_ ∧
      (m.evaluateQuery matchSpec rel).look_for_match_ = m.look_for_match_ := by
  rw [EventMatch.evaluateQuery]
  split
  · exact ⟨rfl, rfl⟩
  · cases m.found <;> exact ⟨rfl, rfl⟩

theorem next_eq (m : EventMatch log) (call : MatchCall) : ∃ matchSpec rel, log.next m call =
    (m.solution_.addStep (core log.log_) MutableFilter.isDisabled call.searchStep).map fun solution =>
      ({ m with solution_ := solution } : EventMatch log).evaluateQuery matchSpec rel := by
  cases call with
  | before cond => exact ⟨_, _, rfl⟩
  | after cond => exact ⟨_, _, rfl⟩
  | refine cond => exact ⟨_, _, rfl⟩

/-- One call of the builder. -/
theorem EventMatch.Pursues.next (h : m.Pursues predicate os) (call : MatchCall) :
    (log.next m call = none → (os.flatMap (onward (call.expansion predicate))).head? = some none) ∧
    (∀ m', log.next m call = some m' → m'.look_for_match_ = m.look_for_match_ ∧
      m'.Pursues (call.predicate predicate) (os.flatMap (onward (call.expansion predicate)))) := by
  obtain ⟨matchSpec, rel, heq⟩ := next_eq m call
  obtain ⟨hraised, hadded⟩ := h.settled.addStep MutableFilter.isDisabled_iterNext call.searchStep
  rw [h.solutions, flatMap_expandBy] at hraised hadded
  rw [heq]
  constructor
  · intro hnone
    have hhead := hraised (Option.map_eq_none_iff.mp hnone)
    generalize os.flatMap (onward (call.expansion predicate)) = found at hhead ⊢
    rcases found with _ | ⟨_ | c, found⟩
    · cases hhead
    · rfl
    · cases hhead
  · intro m' hm'
    obtain ⟨solution, hsolution, rfl⟩ := Option.map_eq_some_iff.mp hm'
    obtain ⟨hsolutions, hsettled⟩ := hadded solution hsolution
    obtain ⟨hsame, hlook⟩ :=
      solution_evaluateQuery ({ m with solution_ := solution } : EventMatch log) matchSpec rel
    refine ⟨hlook, ⟨hsame ▸ hsettled, hsame ▸ hsolutions, ?_⟩⟩
    rw [violation_evaluateQuery, EventMatch.foundSolution, EventMatch.foundSolution, hsame, hlook]
    intro hpositive hviolation
    have hfailed : m.foundSolution = false := by
      have hlook' : m.look_for_match_ = true := hpositive
      have heq := h.violation
      rw [hlook', decide_eq_false hviolation] at heq
      cases hfound : m.foundSolution with
      | false => rfl
      | true => rw [hfound] at heq; cases heq
    -- after a failure there was nothing left to be found
    have hnil : os = [] := by
      have hhead : _ = if m.foundSolution then some true else none := head?_of_solutions h.settled h.solutions
      rw [if_neg (Bool.eq_false_iff.mp hfailed), Option.map_eq_none_iff, head?_eq_none_iff] at hhead
      exact hhead
    rw [hnil] at hsolutions
    have hhead := head?_of_solutions hsettled hsolutions
    by_contra hfound
    rw [if_pos (Bool.not_eq_false _ ▸ hfound)] at hhead
    cases hhead

theorem head?_runFrom_none (h : os.head? = some none) : (runFrom predicate calls os).head? = some none := by
  induction calls generalizing predicate os with
  | nil => exact h
  | cons call calls ih =>
    refine ih ?_
    obtain ⟨rest, rfl⟩ := head?_eq_some_iff.mp h
    rfl

/-- All calls of the builder. -/
theorem EventMatch.Pursues.run (h : m.Pursues predicate os) (calls : List MatchCall) :
    (calls.foldlM log.next m = none → (runFrom predicate calls os).head? = some none) ∧
    (∀ m', calls.foldlM log.next m = some m' → m'.look_for_match_ = m.look_for_match_ ∧
      ∃ predicate', m'.Pursues predicate' (runFrom predicate calls os)) := by
  induction calls generalizing m predicate os with
  | nil => exact ⟨nofun, fun m' hm' => Option.some.inj hm' ▸ ⟨rfl, predicate, h⟩⟩
  | cons call calls ih =>
    rw [foldlM_cons, runFrom]
    cases hnext : log.next m call with
    | none =>
      exact ⟨fun _ => head?_runFrom_none ((h.next call).1 hnext), nofun⟩
    | some m₁ =>
      obtain ⟨hlook, hpursues⟩ := (h.next call).2 m₁ hnext
      obtain ⟨hraised, hdone⟩ := ih hpursues
      exact ⟨hraised, fun m' hm' => ⟨(hdone m' hm').1.trans hlook, (hdone m' hm').2⟩⟩

theorem EventLog.zero_le_length (log : EventLog) : 0 ≤ log.log_.length := Nat.zero_le _

/-- The place at the first entry, which is the header. -/
def LogCursor.first (log : EventLog) : LogCursor log := ⟨0, false, log.zero_le_length⟩

/-- The first condition is given to the pristine search engine. -/
theorem start_eq (log : EventLog) (first : MatchStart) : ∃ matchSpec rel, log.start first =
    ((⟨LogCursor.first log, some fun entry => first.cond.test entry⟩ : LogFilter log).pullFilter).map fun root =>
      ({ EventMatch.create log first.positive with solution_ := ⟨root, [], []⟩ } : EventMatch log).evaluateQuery
        matchSpec rel := by
  have hattach : ∀ (positive : Bool) (cond : SearchCond) (rel : String),
      (EventMatch.create log positive).attachNextSearchStep cond .CURRENT rel =
        ((⟨LogCursor.first log, some fun entry => cond.test entry⟩ : LogFilter log).pullFilter).map fun root =>
          ({ EventMatch.create log positive with solution_ := ⟨root, [], []⟩ } : EventMatch log).evaluateQuery
            cond.matchSpec rel := by
    intro positive cond rel
    have hadd : (EventMatch.buildSearchFilter log).addStep (core log.log_) MutableFilter.isDisabled
        (searchStep (fun entry => cond.test entry) .CURRENT) =
        ((⟨LogCursor.first log, some fun entry => cond.test entry⟩ : LogFilter log).pullFilter).map fun root =>
          ⟨root, [], []⟩ := by
      rfl
    show ((EventMatch.buildSearchFilter log).addStep _ _ _).map _ = _
    rw [hadd, Option.map_map]
    rfl
  cases first with
  | verify cond => exact ⟨_, _, hattach true cond "after"⟩
  | ensureNot val => exact ⟨_, _, hattach false (.find val) "after"⟩

/-- The first call finds what meets the condition. -/
theorem start_pursues (log : EventLog) (first : MatchStart) :
    (log.start first = none →
      (scan (fun entry => first.cond.test entry) (LogCursor.first log)).head? = some none) ∧
    (∀ m, log.start first = some m → m.look_for_match_ = first.positive ∧
      m.Pursues (fun entry => first.cond.test entry)
        (scan (fun entry => first.cond.test entry) (LogCursor.first log))) := by
  obtain ⟨matchSpec, rel, heq⟩ := start_eq log first
  have hfollowing := MutableFilter.following_pullFilter (fun entry => first.cond.test entry) (LogCursor.first log)
  rw [heq]
  constructor
  · intro hnone
    rw [Option.map_eq_none_iff.mp hnone] at hfollowing
    generalize scan (fun entry => first.cond.test entry) (LogCursor.first log) = found at hfollowing ⊢
    rcases found with _ | ⟨_ | c, found⟩
    · cases hfollowing
    · rfl
    · cases hfollowing
  · intro m hm
    obtain ⟨root, hroot, rfl⟩ := Option.map_eq_some_iff.mp hm
    obtain ⟨hsame, hlook⟩ := solution_evaluateQuery
      ({ EventMatch.create log first.positive with solution_ := ⟨root, [], []⟩ } : EventMatch log) matchSpec rel
    rw [hroot] at hfollowing
    refine ⟨hlook, ⟨hsame ▸ ?_, hsame ▸ ?_, ?_⟩⟩
    · refine { below_valid := nofun, current_valid := fun h => absurd rfl h, depth_le := Nat.le_refl _,
               enabled := ?_, complete := fun _ => rfl }
      show root.isDisabled = false
      rw [MutableFilter.isDisabled, MutableFilter.predicate_pullFilter hroot]
      rfl
    · show (core log.log_).outcomes root ++ [] = _
      rw [append_nil]
      exact hfollowing
    · rw [violation_evaluateQuery, EventMatch.foundSolution, EventMatch.foundSolution, hsame, hlook]
      exact fun _ hviolation => absurd rfl hviolation

/-- The result of the evaluation is determined by what is found first. -/
theorem evaluate_eq (log : EventLog) (first : MatchStart) (calls : List MatchCall) :
    log.evaluate first calls =
      match (runFrom (fun entry => first.cond.test entry) calls
        (scan (fun entry => first.cond.test entry) (LogCursor.first log))).head?.map Option.isSome with
      | some false => none
      | some true => some first.positive
      | none => some (!first.positive) := by
  obtain ⟨hraised, hstarted⟩ := start_pursues log first
  rw [EventLog.evaluate]
  cases hstart : log.start first with
  | none => rw [head?_runFrom_none (hraised hstart)]; rfl
  | some m =>
    obtain ⟨hlook, hpursues⟩ := hstarted m hstart
    obtain ⟨hfailed, hdone⟩ := hpursues.run calls
    rw [Option.bind_some]
    cases hrun : calls.foldlM log.next m with
    | none => rw [hfailed hrun]; rfl
    | some m' =>
      obtain ⟨hlook', predicate', hpursues'⟩ := hdone m' hrun
      have hhead := head?_of_solutions hpursues'.settled hpursues'.solutions
      rw [hhead, Option.map_some, hpursues'.violation, hlook', hlook]
      show some (m'.foundSolution == first.positive) = match if m'.foundSolution then some true else none with
        | some false => none
        | some true => some first.positive
        | none => some (!first.positive)
      cases m'.foundSolution <;> cases first.positive <;> rfl

/-! ## Positions instead of places -/

theorem map_index_scan (predicate : Entry → Option Bool) (c : LogCursor log) :
    (scan predicate c).map (Option.map CursorGear.index) = Choice.approved (testAt log predicate) c.ahead := by
  induction c using Lumiera.Lib.MutableFilter.scan.induct predicate with
  | case1 c hvalid hraises =>
    have htest : testAt log predicate c.index = none := (testAt_eq (CursorGear.index_lt hvalid)).trans hraises
    rw [MutableFilter.scan_valid hvalid, hraises, CursorGear.ahead_of_valid hvalid, Choice.approved, htest]
    rfl
  | case2 c hvalid happroved ih =>
    have htest : testAt log predicate c.index = some true :=
      (testAt_eq (CursorGear.index_lt hvalid)).trans happroved
    rw [MutableFilter.scan_valid hvalid, happroved, CursorGear.ahead_of_valid hvalid, Choice.approved, htest]
    exact congrArg _ ih
  | case3 c hvalid hrejected ih =>
    have htest : testAt log predicate c.index = some false :=
      (testAt_eq (CursorGear.index_lt hvalid)).trans hrejected
    rw [MutableFilter.scan_valid hvalid, hrejected, CursorGear.ahead_of_valid hvalid, Choice.approved, htest]
    exact ih
  | case4 c hexhausted =>
    have hfalse : c.checkPoint = false := Bool.not_eq_true _ ▸ hexhausted
    rw [MutableFilter.scan_exhausted hfalse, CursorGear.ahead_of_exhausted hfalse]
    rfl

theorem flatMap_index_scan {β : Type} (predicate : Entry → Option Bool) (c : LogCursor log) (g : Option ℕ → List β) :
    (Choice.approved (testAt log predicate) c.ahead).flatMap g = (scan predicate c).flatMap fun outcome =>
    g (outcome.map CursorGear.index) := by
  rw [← map_index_scan, flatMap_map]

/-! ## Refinements -/

/-- **A refinement** goes on from each element which was found up to then; what comes first is the same as when
searching for both conditions from the start. -/
theorem sameFirst_refine (predicate : Entry → Option Bool) (cond : RefineCond) (c : LogCursor log) :
    SameFirst ((scan predicate c).flatMap (onward ((MatchCall.refine cond).expansion predicate)))
      (scan ((MatchCall.refine cond).predicate predicate) c) := by
  intro β search
  have hboth : ∀ (c : LogCursor log) (hvalid : c.checkPoint = true),
      (MatchCall.refine cond).predicate predicate (c.yield log.log_ hvalid) =
      (predicate (c.yield log.log_ hvalid)).bind fun holds =>
        if holds then some (cond.test (c.yield log.log_ hvalid)) else some false := fun _ _ => rfl
  induction c using Lumiera.Lib.MutableFilter.scan.induct predicate with
  | case1 c hvalid hraises =>
    have htwo := (hboth c hvalid).trans (by rw [hraises])
    rw [MutableFilter.scan_valid hvalid, MutableFilter.scan_valid hvalid, hraises, htwo]
    rfl
  | case2 c hvalid happroved ih =>
    have htwo := (hboth c hvalid).trans (by rw [happroved])
    have hscan : scan ((MatchCall.refine cond).predicate predicate) c =
        if cond.test (c.yield log.log_ hvalid) then
          some c :: scan ((MatchCall.refine cond).predicate predicate) (c.iterNext hvalid)
        else scan ((MatchCall.refine cond).predicate predicate) (c.iterNext hvalid) := by
      rw [MutableFilter.scan_valid hvalid, htwo]
      cases cond.test (c.yield log.log_ hvalid) <;> rfl
    rw [MutableFilter.scan_valid hvalid, happroved]
    rw [flatMap_cons, findSome?_append, ih]
    -- what the refined search finds from here on is found from the next element on as well
    show ((scan ((MatchCall.refine cond).predicate predicate) c).findSome? search).or _ = _
    rw [hscan]
    split
    · rw [findSome?_cons]
      cases search (some c) with
      | none => exact Option.or_self
      | some found => rfl
    · exact Option.or_self
  | case3 c hvalid hrejected ih =>
    have htwo := (hboth c hvalid).trans (by rw [hrejected])
    rw [MutableFilter.scan_valid hvalid, MutableFilter.scan_valid hvalid, hrejected, htwo]
    exact ih
  | case4 c hexhausted =>
    have hfalse : c.checkPoint = false := Bool.not_eq_true _ ▸ hexhausted
    rw [MutableFilter.scan_exhausted hfalse, MutableFilter.scan_exhausted hfalse]
    rfl

theorem sameFirst_runFrom (h : SameFirst os os') :
    SameFirst (runFrom predicate calls os) (runFrom predicate calls os') := by
  induction calls generalizing predicate os os' with
  | nil => exact h
  | cons call calls ih => exact ih (h.flatMap fun _ _ => SameFirst.refl _)

theorem runFrom_flatMap (g : LogCursor log → List (Option (LogCursor log))) :
    runFrom predicate calls (os.flatMap (onward g)) =
      os.flatMap (onward fun c => runFrom predicate calls (g c)) := by
  induction calls generalizing predicate g with
  | nil => rfl
  | cons call calls ih =>
    have hassoc : (os.flatMap (onward g)).flatMap (onward (call.expansion predicate)) =
        os.flatMap (onward fun c => (g c).flatMap (onward (call.expansion predicate))) := by
      rw [flatMap_assoc]
      refine congrArg os.flatMap (funext fun outcome => ?_)
      cases outcome <;> rfl
    rw [runFrom, hassoc, ih]
    rfl

/-! ## The answer -/

/-- **What is found by the calls** is, as far as it comes first, what the search by positions finds for the steps
these calls are attached to. -/
theorem sameFirst_search (predicate : Entry → Option Bool) (calls : List MatchCall) (c : LogCursor log) :
    SameFirst ((runFrom predicate calls (scan predicate c)).map Option.isSome)
      ((Choice.approved (testAt log (withRefinements predicate (attach calls).1)) c.ahead).flatMap fun outcome =>
        outcome.elim [false] fun i => Choice.search ((attach calls).2.map (MatchStep.choice log)) (some i)) := by
  induction calls generalizing predicate c with
  | nil =>
    have hsame : (scan predicate c).map Option.isSome =
        (Choice.approved (testAt log predicate) c.ahead).flatMap fun outcome =>
          outcome.elim [false] fun i => Choice.search [] (some i) := by
      rw [flatMap_index_scan, map_eq_flatMap]
      refine congrArg (scan predicate c).flatMap (funext fun outcome => ?_)
      cases outcome <;> rfl
    exact hsame ▸ SameFirst.refl _
  | cons call calls ih =>
    -- a further step begins at each element found, whatever direction it goes
    have hstep : ∀ (backwards : Bool) (cond : SearchCond),
        SameFirst ((runFrom (fun entry => cond.test entry) calls ((scan predicate c).flatMap
            (onward (searchFrom backwards fun entry => cond.test entry)))).map Option.isSome)
          ((Choice.approved (testAt log predicate) c.ahead).flatMap fun outcome =>
            outcome.elim [false] fun i => Choice.search
              ((⟨backwards, cond, (attach calls).1⟩ :: (attach calls).2).map (MatchStep.choice log))
              (some i)) := by
      intro backwards cond
      rw [runFrom_flatMap, flatMap_index_scan, map_flatMap]
      refine (SameFirst.refl _).flatMap fun outcome hmem => ?_
      cases outcome with
      | none => exact SameFirst.refl _
      | some c' =>
        have hvalid := MutableFilter.checkPoint_of_mem_scan hmem
        obtain ⟨hturned, hindex, hdirection⟩ := CursorGear.reverse_spec hvalid backwards
        have hsearch : searchFrom backwards (fun entry => cond.test entry) c' =
            scan (fun entry => cond.test entry) ((c'.reverse backwards).iterNext hturned) := dif_pos hturned
        have hahead : ((c'.reverse backwards).iterNext hturned).ahead =
            CursorGear.beyond log.log_.length backwards c'.index := by
          rw [CursorGear.ahead_iterNext, hindex, hdirection]
        show SameFirst ((runFrom _ calls (searchFrom backwards _ c')).map _) _
        rw [hsearch]
        have hfound := ih (fun entry => cond.test entry) ((c'.reverse backwards).iterNext hturned)
        rw [hahead] at hfound
        exact hfound
    cases call with
    | before cond => exact hstep false cond
    | after cond => exact hstep true cond
    | refine cond =>
      exact ((sameFirst_runFrom (sameFirst_refine predicate cond c)).map _).trans (ih _ c)

/-- The evaluation comes to what the search by positions finds first. -/
theorem evaluate_eq_search (log : EventLog) (first : MatchStart) (calls : List MatchCall) :
    log.evaluate first calls =
      match (Choice.search ((matchSteps first calls).map (MatchStep.choice log)) none).head? with
      | some false => none
      | some true => some first.positive
      | none => some (!first.positive) := by
  have hahead : (LogCursor.first log).ahead = List.range log.log_.length :=
    (range_eq_range' ..).symm
  have hsame := (sameFirst_search (fun entry => first.cond.test entry) calls (LogCursor.first log)).head?_eq
  rw [hahead, head?_map] at hsame
  rw [evaluate_eq, hsame]
  rfl

theorem decides_search (log : EventLog) (first : MatchStart) (calls : List MatchCall) :
    Choice.Decides (log.Matches none (matchSteps first calls)) (log.Halts none (matchSteps first calls))
      (TriedBefore (matchSteps first calls))
      (Choice.search ((matchSteps first calls).map (MatchStep.choice log)) none).head? := by
  have hstart : ∀ i, (none : Option ℕ) = some i → i < log.log_.length := nofun
  have hbefore : Choice.TriedBefore ((matchSteps first calls).map (MatchStep.choice log)) =
      TriedBefore (matchSteps first calls) :=
    funext fun solution => funext fun path => propext triedBefore_iff
  rw [← hbefore]
  exact (Choice.decides_search _ none).congr (fun solution => (solves_iff hstart).symm)
    fun path => (raises_iff hstart).symm

theorem evaluate_raises {first : MatchStart} {path : List ℕ}
    (hpath : log.Halts none (matchSteps first calls) path)
    (hnone : ∀ solution, log.Matches none (matchSteps first calls) solution →
      ¬ TriedBefore (matchSteps first calls) solution path) : log.evaluate first calls = none := by
  have hraised := (decides_search log first calls).raised_iff.mpr ⟨path, hpath, hnone⟩
  rw [evaluate_eq_search, hraised]

/-- The answer is right, when a match is tried before each entry where a condition fails. -/
theorem evaluate_answers {first : MatchStart} (hbefore : ∀ path, log.Halts none (matchSteps first calls) path →
      ∃ solution, log.Matches none (matchSteps first calls) solution ∧
        TriedBefore (matchSteps first calls) solution path) :
    ∃ result, log.evaluate first calls = some result ∧
      (result = true ↔ first.Demands (∃ solution, log.Matches none (matchSteps first calls) solution)) := by
  have hdecides := decides_search log first calls
  have hresult := evaluate_eq_search log first calls
  generalize (Choice.search ((matchSteps first calls).map (MatchStep.choice log)) none).head? = found at *
  have hfound : found ≠ some false := by
    intro hexception
    obtain ⟨path, hpath, hnot⟩ := hdecides.raised_iff.mp hexception
    obtain ⟨solution, hsolution, hfirst⟩ := hbefore path hpath
    exact hnot solution hsolution hfirst
  have hmatch := hdecides.solved_iff hfound
  rcases found with _ | _ | _
  · have hnone : ¬ ∃ solution, log.Matches none (matchSteps first calls) solution := fun h => nomatch hmatch.mpr h
    refine ⟨!first.positive, hresult, ?_⟩
    cases first with
    | verify cond => exact ⟨nofun, fun h => absurd h hnone⟩
    | ensureNot val => exact ⟨fun _ => hnone, fun _ => rfl⟩
  · exact absurd rfl hfound
  · have hsome : ∃ solution, log.Matches none (matchSteps first calls) solution := hmatch.mp rfl
    refine ⟨first.positive, hresult, ?_⟩
    cases first with
    | verify cond => exact ⟨fun _ => hsome, fun _ => rfl⟩
    | ensureNot val => exact ⟨nofun, fun h => absurd hsome h⟩

/-- **Evaluation of a match expression** comes to the right answer, if and only if a complete match is tried before
any positions which lead to an entry where a condition fails. The right answer is whether there is a match, or, for
`ensureNot`, whether there is none. -/
theorem EventLog.evaluate_iff (log : EventLog) (first : MatchStart) (calls : List MatchCall) :
    (∃ result, log.evaluate first calls = some result ∧
      (result = true ↔ first.Demands (∃ solution, log.Matches none (matchSteps first calls) solution))) ↔
    ∀ path, log.Halts none (matchSteps first calls) path →
      ∃ solution, log.Matches none (matchSteps first calls) solution ∧
        TriedBefore (matchSteps first calls) solution path := by
  refine ⟨?_, evaluate_answers⟩
  rintro ⟨result, heq, -⟩ path hpath
  by_contra hnone
  have hraises : log.evaluate first calls = none :=
    evaluate_raises hpath fun solution hsolution hbefore => hnone ⟨solution, hsolution, hbefore⟩
  rw [hraises] at heq
  cases heq

/-- A log, to which a call was noted without telling the function. -/
def noteWithoutFunction : EventLog where
  header := ⟨"EventLogHeader", ["this=log"], []⟩
  entries := [⟨"call", [], ["boo"]⟩]
  hasID := by decide

/-- Looking for a call in this log raises an exception. -/
theorem not_evaluate_noteWithoutFunction : ¬ ∃ result,
    noteWithoutFunction.evaluate (.verify (.findCall "foo")) [] = some result ∧
      (result = true ↔ (MatchStart.verify (.findCall "foo")).Demands
        (∃ solution, noteWithoutFunction.Matches none (matchSteps (.verify (.findCall "foo")) []) solution)) := by
  have hraises : noteWithoutFunction.evaluate (.verify (.findCall "foo")) [] = none := by
    rw [evaluate_eq_search]
    decide
  rintro ⟨result, heq, -⟩
  rw [hraises] at heq
  cases heq

end Lumiera.Lib.Test
