import Mathlib.Data.List.Nodup

/-! # Index of advice solutions (`common/advice/index.hpp`)

Based on two hashtables for advice provisions and requests, the index adds, modifies and removes
entities of these two kinds, and immediately publishes the resulting solutions into the requests.
An entry refers to an entity by its memory location, and carries a copy of its matcher. The state
comprises the points of advice as well, since the index reads their binding and sets their
solution. A result `none` stands for a violated `REQUIRE`. -/

namespace Lumiera.Advice

open List

/-- Hash values used as key of the tables. -/
abbrev HashVal := Nat

/-- Precompiled information for matching bindings; for constant patterns this is the hash. -/
structure Matcher where
  bindingHash : HashVal
  deriving DecidableEq, Repr

/-- Match against the matcher of a collaboration partner. -/
def Matcher.matches (m other : Matcher) : Bool := m.bindingHash == other.bindingHash

/-- A point of advice: its binding, and the link to the advice solution (`resolution_`). -/
structure PointOfAdvice (P : Type) where
  pattern : Matcher
  resolution : Option P
  deriving DecidableEq, Repr

/-- An index entry, referring to an entity of type `ELM`. -/
structure Entry (ELM : Type) where
  matcher : Matcher
  elm : ELM
  deriving DecidableEq, Repr

/-! ## Clusters: the entries sharing a hash -/

/-- The entries in one bucket, in the order of their addition. -/
abbrev Cluster (ELM : Type) := List (Entry ELM)

namespace Cluster

variable {ELM : Type}

/-- The entities referred to. -/
def elms (c : Cluster ELM) : List ELM := c.map (·.elm)

/-- Replace the first entry for `old`. -/
def replace [DecidableEq ELM] (old : ELM) (new : Entry ELM) : Cluster ELM → Cluster ELM
  | [] => []
  | e :: es => if e.elm = old then new :: es else e :: replace old new es

variable [DecidableEq ELM] (c : Cluster ELM)

/-- Is there an entry for this entity? -/
def contains (x : ELM) : Bool := c.any (·.elm = x)

/-- Add an entry, which must not be there yet. -/
def append (new : Entry ELM) : Option (Cluster ELM) :=
  if c.contains new.elm then none else some (c ++ [new])

/-- Replace the entry for `old`, which must be there. -/
def overwrite (old : ELM) (new : Entry ELM) : Option (Cluster ELM) :=
  if ¬ c.contains old then none
  else if old ≠ new.elm ∧ c.contains new.elm then none
  else
    let c' : Cluster ELM := c.replace old new
    if old ≠ new.elm ∧ c'.contains old then none else some c'

/-- Remove the entry for this entity, if there is one. -/
def remove (x : ELM) : Option (Cluster ELM) :=
  let c' : Cluster ELM := c.eraseP (·.elm = x)
  if c'.contains x then none else some c'

/-- `find_latest_solution`: the most recently added entry matching the pattern. -/
def findLatestSolution (pattern : Matcher) : Option ELM :=
  (c.reverse.find? (·.matcher.matches pattern)).map (·.elm)

variable {c}

omit [DecidableEq ELM] in
theorem mem_elms {x : ELM} : x ∈ c.elms ↔ ∃ e ∈ c, e.elm = x := mem_map

theorem contains_iff {x : ELM} : c.contains x = true ↔ x ∈ c.elms := by
  simp [contains, elms]

theorem append_eq_some {new : Entry ELM} {c' : Cluster ELM} (h : c.append new = some c') :
    new.elm ∉ c.elms ∧ c' = c ++ [new] := by
  unfold append at h
  split at h
  · cases h
  · next hnot =>
      cases h
      exact ⟨fun hmem => hnot (contains_iff.mpr hmem), rfl⟩

theorem eraseP_eq_filter (x : ELM) (h : c.elms.Nodup) : c.eraseP (·.elm = x) = c.filter (·.elm ≠ x) := by
  induction c with
  | nil => rfl
  | cons e es ih =>
    obtain ⟨hnot, hrest⟩ := nodup_cons.mp h
    by_cases he : e.elm = x
    · have hkeep : es.filter (·.elm ≠ x) = es := by
        rw [filter_eq_self]
        intro e' hmem
        have hne : e'.elm ≠ x := fun heq => hnot (mem_elms.mpr ⟨e', hmem, heq.trans he.symm⟩)
        simpa using hne
      rw [eraseP_cons_of_pos (by simpa using he), filter_cons_of_neg (by simpa using he),
        hkeep]
    · rw [eraseP_cons_of_neg (by simpa using he), filter_cons_of_pos (by simpa using he),
        ih hrest]

theorem remove_eq_filter (x : ELM) (h : c.elms.Nodup) : c.remove x = some (c.filter (·.elm ≠ x)) := by
  have hgone : ¬ Cluster.contains (c.filter (·.elm ≠ x)) x = true := by
    rw [contains_iff, mem_elms]
    rintro ⟨e, hmem, rfl⟩
    simp at hmem
  rw [remove, eraseP_eq_filter x h]
  exact if_neg hgone

theorem replace_eq_map (old : ELM) (new : Entry ELM) (h : c.elms.Nodup) :
    c.replace old new = c.map fun e => if e.elm = old then new else e := by
  induction c with
  | nil => rfl
  | cons e es ih =>
    obtain ⟨hnot, hrest⟩ := nodup_cons.mp h
    rw [replace, map_cons]
    by_cases he : e.elm = old
    · have hkeep : es.map (fun e => if e.elm = old then new else e) = es := by
        refine (map_congr_left fun e' hmem => ?_).trans (map_id es)
        exact if_neg fun heq => hnot (mem_elms.mpr ⟨e', hmem, heq.trans he.symm⟩)
      rw [if_pos he, if_pos he, hkeep]
    · rw [if_neg he, if_neg he, ih hrest]

theorem overwrite_eq_some {old : ELM} {new : Entry ELM} {c' : Cluster ELM} (hc : c.elms.Nodup)
    (h : c.overwrite old new = some c') :
    old ∈ c.elms ∧ (new.elm = old ∨ new.elm ∉ c.elms) ∧
      c' = c.map fun e => if e.elm = old then new else e := by
  unfold overwrite at h
  split at h
  · cases h
  split at h
  · cases h
  next hin hdup =>
    dsimp only at h
    split at h
    · cases h
    · cases h
      refine ⟨contains_iff.mp (by simpa using hin), ?_, replace_eq_map old new hc⟩
      by_cases heq : new.elm = old
      · exact .inl heq
      · exact .inr fun hmem => hdup ⟨fun h => heq h.symm, contains_iff.mpr hmem⟩

omit [DecidableEq ELM] in
theorem findLatestSolution_eq_getLast? {pattern : Matcher}
    (h : ∀ e ∈ c, e.matcher = pattern) : c.findLatestSolution pattern = c.elms.getLast? := by
  rw [findLatestSolution, elms]
  rcases eq_nil_or_concat c with rfl | ⟨es, e, rfl⟩
  · rfl
  · have he : e.matcher.matches pattern = true := by simp [h e (by simp), Matcher.matches]
    simp [he]

end Cluster

/-! ## The index -/

/-- The two tables, together with the points of advice they refer to. -/
structure Index (R P : Type) where
  requestEntries : HashVal → Cluster R
  provisionEntries : HashVal → Cluster P
  /-- The requests in memory. -/
  requests : R → PointOfAdvice P
  /-- The binding of the provisions in memory. -/
  provisions : P → Matcher

namespace Index

variable {R P : Type} [DecidableEq R] [DecidableEq P]

/-- Empty tables. -/
def empty (requests : R → PointOfAdvice P) (provisions : P → Matcher) : Index R P :=
  ⟨fun _ => [], fun _ => [], requests, provisions⟩

/-- Key of a request. -/
def requestKey (s : Index R P) (r : R) : HashVal := (s.requests r).pattern.bindingHash

/-- Key of a provision. -/
def provisionKey (s : Index R P) (p : P) : HashVal := (s.provisions p).bindingHash

/-- The entry for a request as it is now. -/
def requestEntry (s : Index R P) (r : R) : Entry R := ⟨(s.requests r).pattern, r⟩

/-- The entry for a provision as it is now. -/
def provisionEntry (s : Index R P) (p : P) : Entry P := ⟨s.provisions p, p⟩

/-- Publish a solution into a request. -/
def setSolution (s : Index R P) (r : R) (solution : Option P) : Index R P :=
  { s with requests := Function.update s.requests r { s.requests r with resolution := solution } }

/-- Change the binding of a request in memory. -/
def setBindingPattern (s : Index R P) (r : R) (pattern : Matcher) : Index R P :=
  { s with requests := Function.update s.requests r { s.requests r with pattern := pattern } }

/-- Is the request registered, under its present key? -/
def hasRequest (s : Index R P) (r : R) : Bool := (s.requestEntries (s.requestKey r)).contains r

/-- Is the provision registered, under its present key? -/
def hasProvision (s : Index R P) (p : P) : Bool :=
  (s.provisionEntries (s.provisionKey p)).contains p

/-- `publish_latest_solution` into a request, from the cluster with the given key. -/
def publishLatestSolution (s : Index R P) (key : HashVal) (r : R) : Index R P :=
  s.setSolution r ((s.provisionEntries key).findLatestSolution (s.requests r).pattern)

/-- The loop over the entries of a request cluster: `treat` tells what to do with an entry. -/
def forEachRequest (treat : Entry R → Option (Index R P → Index R P)) (s : Index R P)
    (c : Cluster R) : Index R P :=
  c.foldl (fun s e => match treat e with
    | some act => act s
    | none => s) s

/-- `publish_all_solutions`: the given provision satisfies all matching requests. -/
def publishAllSolutions (s : Index R P) (c : Cluster R) (p : P) : Index R P :=
  let pattern := s.provisions p
  forEachRequest (fun e =>
    if pattern.matches e.matcher then some fun s => s.setSolution e.elm (some p) else none) s c

/-- `retract_all_solutions`: requests matching the old provision are treated anew. -/
def retractAllSolutions (s : Index R P) (c : Cluster R) (oldProv : P) (key : HashVal) :
    Index R P :=
  let pattern := s.provisions oldProv
  forEachRequest (fun e =>
    if pattern.matches e.matcher then some fun s => s.publishLatestSolution key e.elm else none) s c

/-- `rewrite_all_solutions`: the new provision satisfies all requests matching it, other requests
matching the old one are treated anew. -/
def rewriteAllSolutions (s : Index R P) (c : Cluster R) (oldProv newProv : P) (key : HashVal) :
    Index R P :=
  let oldPattern := s.provisions oldProv
  let newPattern := s.provisions newProv
  forEachRequest (fun e =>
    if newPattern.matches e.matcher then some fun s => s.setSolution e.elm (some newProv)
    else if oldPattern.matches e.matcher then some fun s => s.publishLatestSolution key e.elm
    else none) s c

/-- Store a changed cluster in the table of requests. -/
def setRequestCluster (s : Index R P) (key : HashVal) (c : Cluster R) : Index R P :=
  { s with requestEntries := Function.update s.requestEntries key c }

/-- Store a changed cluster in the table of provisions. -/
def setProvisionCluster (s : Index R P) (key : HashVal) (c : Cluster P) : Index R P :=
  { s with provisionEntries := Function.update s.provisionEntries key c }

/-! ## Operations -/

/-- Register a request, and publish its solution. -/
def addRequest (s : Index R P) (r : R) : Option (Index R P) := do
  let key := s.requestKey r
  let c ← (s.requestEntries key).append (s.requestEntry r)
  return (s.setRequestCluster key c).publishLatestSolution key r

/-- Adjust the registration of a request whose binding was changed, from the key `oKey`. -/
def modifyRequest (s : Index R P) (oKey : HashVal) (r : R) : Option (Index R P) := do
  let nKey := s.requestKey r
  if oKey ≠ nKey then
    let c ← (s.requestEntries nKey).append (s.requestEntry r)
    let s := s.setRequestCluster nKey c
    let c ← (s.requestEntries oKey).remove r
    return (s.setRequestCluster oKey c).publishLatestSolution nKey r
  else
    let c ← (s.requestEntries nKey).overwrite r (s.requestEntry r)
    return (s.setRequestCluster nKey c).publishLatestSolution nKey r

/-- Deregister a request. -/
def removeRequest (s : Index R P) (r : R) : Option (Index R P) := do
  let oKey := s.requestKey r
  let c ← (s.requestEntries oKey).remove r
  return s.setRequestCluster oKey c

/-- Register a provision, and publish it to all matching requests. -/
def addProvision (s : Index R P) (p : P) : Option (Index R P) := do
  let key := s.provisionKey p
  let c ← (s.provisionEntries key).append (s.provisionEntry p)
  let s := s.setProvisionCluster key c
  return s.publishAllSolutions (s.requestEntries key) p

/-- Replace a provision by another one. -/
def modifyProvision (s : Index R P) (oldRef newEntry : P) : Option (Index R P) := do
  let oKey := s.provisionKey oldRef
  let nKey := s.provisionKey newEntry
  if oKey ≠ nKey then
    let c ← (s.provisionEntries nKey).append (s.provisionEntry newEntry)
    let s := s.setProvisionCluster nKey c
    let c ← (s.provisionEntries oKey).remove oldRef
    let s := s.setProvisionCluster oKey c
    let s := s.publishAllSolutions (s.requestEntries nKey) newEntry
    return s.retractAllSolutions (s.requestEntries oKey) oldRef oKey
  else
    let c ← (s.provisionEntries nKey).overwrite oldRef (s.provisionEntry newEntry)
    let s := s.setProvisionCluster nKey c
    return s.rewriteAllSolutions (s.requestEntries nKey) oldRef newEntry nKey

/-- Remove a provision, and rewrite the requests it was the solution of. -/
def removeProvision (s : Index R P) (p : P) : Option (Index R P) := do
  let key := s.provisionKey p
  let c ← (s.provisionEntries key).remove p
  let s := s.setProvisionCluster key c
  return s.retractAllSolutions (s.requestEntries key) p key

/-! ## Publishing into requests -/

/-- The requests in a bucket. -/
def reqs (s : Index R P) (key : HashVal) : List R := (s.requestEntries key).elms

/-- The provisions in a bucket, in the order of their addition. -/
def provs (s : Index R P) (key : HashVal) : List P := (s.provisionEntries key).elms

/-- The same requests, with a solution published into some of them. -/
def solvedBy (requests : R → PointOfAdvice P) (rs : List R) (solution : Option P) :
    R → PointOfAdvice P :=
  fun r => if r ∈ rs then { requests r with resolution := solution } else requests r

omit [DecidableEq P] in
@[simp] theorem pattern_solvedBy (requests : R → PointOfAdvice P) (rs : List R) (solution : Option P) (r : R) :
    (solvedBy requests rs solution r).pattern = (requests r).pattern := by
  unfold solvedBy
  split <;> rfl

variable {requests : R → PointOfAdvice P} {solution : Option P}

omit [DecidableEq P] in
theorem resolution_solvedBy_of_mem {rs : List R} {r : R} (h : r ∈ rs) :
    (solvedBy requests rs solution r).resolution = solution := by
  rw [solvedBy, if_pos h]

omit [DecidableEq P] in
theorem resolution_solvedBy_of_notMem {rs : List R} {r : R} (h : r ∉ rs) :
    (solvedBy requests rs solution r).resolution = (requests r).resolution := by
  rw [solvedBy, if_neg h]

omit [DecidableEq P] in
/-- A loop which publishes the same solution into each request visited. -/
theorem forEachRequest_eq {treat : Entry R → Option (Index R P → Index R P)} {c : Cluster R}
    (s : Index R P)
    (h : ∀ e ∈ c, ∃ act, treat e = some act ∧ ∀ rs : List R,
      act { s with requests := solvedBy s.requests rs solution } =
        { s with requests := solvedBy s.requests (rs ++ [e.elm]) solution }) :
    forEachRequest treat s c = { s with requests := solvedBy s.requests c.elms solution } := by
  have key : ∀ (rs : List R), (∀ e ∈ c, ∃ act, treat e = some act ∧ ∀ rs : List R,
      act { s with requests := solvedBy s.requests rs solution } =
        { s with requests := solvedBy s.requests (rs ++ [e.elm]) solution }) →
      forEachRequest treat { s with requests := solvedBy s.requests rs solution } c =
        { s with requests := solvedBy s.requests (rs ++ c.elms) solution } := by
    clear h
    induction c with
    | nil => intro rs _; simp [forEachRequest, Cluster.elms]
    | cons e es ih =>
      intro rs h
      obtain ⟨act, htreat, hact⟩ := h e mem_cons_self
      have hstep : forEachRequest treat { s with requests := solvedBy s.requests rs solution }
          (e :: es) = forEachRequest treat
            (act { s with requests := solvedBy s.requests rs solution }) es := by
        simp [forEachRequest, htreat]
      rw [hstep, hact, ih _ fun e he => h e (mem_cons_of_mem _ he)]
      simp [Cluster.elms]
  have hnone : solvedBy s.requests [] solution = s.requests := by
    funext r
    simp [solvedBy]
  have := key [] h
  rwa [hnone, nil_append] at this

omit [DecidableEq P] in
theorem setSolution_solvedBy (s : Index R P) (rs : List R) (solution : Option P) (r : R) :
    ({ s with requests := solvedBy s.requests rs solution } : Index R P).setSolution r solution =
      { s with requests := solvedBy s.requests (rs ++ [r]) solution } := by
  unfold setSolution
  congr 1
  funext x
  by_cases hx : x = r
  · subst hx
    by_cases hmem : x ∈ rs <;> simp [solvedBy, hmem]
  · by_cases hmem : x ∈ rs <;> simp [solvedBy, hmem, hx]

end Index

end Lumiera.Advice
