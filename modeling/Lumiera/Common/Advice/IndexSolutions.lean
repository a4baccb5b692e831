import Lumiera.Base.Machine
import Lumiera.Common.Advice.IndexOperations

/-! # The solutions published by the index

Runs of the index: any sequence of operations on requests and provisions with any bindings. Beside
the index there is a record of the provisions present, in the order of their addition, to tell what
the solution of a request should be. `verify_Request` states this as expectation, yet modifying a
provision in place publishes it to all requests with its key, be it on top or not. -/

namespace Lumiera.Advice

open List

variable {R P : Type} [DecidableEq R] [DecidableEq P]

/-! ## Runs of the index -/

/-- **The index in use**, with the provisions present. -/
structure IndexInUse (R P : Type) where
  index : Index R P
  /-- The provisions present, in the order of addition; modifying a provision without changing its
  key puts the new one in its place. -/
  stack : List P

/-- Operations on the index. -/
inductive IndexOp (R P : Type)
  /-- A request in memory gets another binding, while it is not registered. -/
  | setRequestBinding (r : R) (pattern : Matcher)
  /-- A provision in memory gets another binding, while it is not registered. -/
  | setProvisionBinding (p : P) (pattern : Matcher)
  | addRequest (r : R)
  /-- A request gets another binding, followed by `modifyRequest`. -/
  | modifyRequest (r : R) (pattern : Matcher)
  | removeRequest (r : R)
  | addProvision (p : P)
  | modifyProvision (oldRef newEntry : P)
  | removeProvision (p : P)

namespace IndexInUse

/-- Perform an operation, unless it violates a `REQUIRE`. -/
def step (s : IndexInUse R P) : IndexOp R P → Option (IndexInUse R P)
  | .setRequestBinding r pattern =>
    if s.index.hasRequest r then none
    else some { s with index := s.index.setBindingPattern r pattern }
  | .setProvisionBinding p pattern =>
    if s.index.hasProvision p then none
    else some { s with index := { s.index with
      provisions := Function.update s.index.provisions p pattern } }
  | .addRequest r => do return { s with index := ← s.index.addRequest r }
  | .modifyRequest r pattern => do return { s with index := ← s.index.rebindRequest r pattern }
  | .removeRequest r => do return { s with index := ← s.index.removeRequest r }
  | .addProvision p => do return ⟨← s.index.addProvision p, s.stack ++ [p]⟩
  | .modifyProvision p q => do
      let index ← s.index.modifyProvision p q
      if s.index.provisionKey p ≠ s.index.provisionKey q then
        return ⟨index, s.stack.filter (· ≠ p) ++ [q]⟩
      else
        return ⟨index, s.stack.map fun x => if x = p then q else x⟩
  | .removeProvision p => do return ⟨← s.index.removeProvision p, s.stack.filter (· ≠ p)⟩

/-- The index in use, starting with empty tables and with any points of advice in memory. -/
def machine (requests : R → PointOfAdvice P) (provisions : P → Matcher) :
    Machine (IndexInUse R P) (IndexOp R P) :=
  .ofFun ⟨.empty requests provisions, []⟩ step

/-- **A provision modified in place is on top**, unless there is no request with its key. -/
def Topmost (s : IndexInUse R P) : IndexOp R P → Prop
  | .modifyProvision p q => s.index.provisionKey p = s.index.provisionKey q →
      s.index.reqs (s.index.provisionKey q) = [] ∨
        (s.index.provs (s.index.provisionKey q)).getLast? = some p
  | _ => True

instance (s : IndexInUse R P) (op : IndexOp R P) : Decidable (Topmost s op) := by
  cases op <;> unfold Topmost <;> infer_instance

/-! ## Each request has the latest solution -/

/-- **Invariant**: the buckets of the provisions are the stack, sorted by key, and each request has
the last provision of its bucket as solution. -/
structure UpToDate (s : IndexInUse R P) : Prop where
  wellFormed : s.index.WellFormed
  provs : ∀ key, s.index.provs key = s.stack.filter fun p => (s.index.provisions p).matches ⟨key⟩
  solution : ∀ key, ∀ r ∈ s.index.reqs key,
    (s.index.requests r).resolution = (s.index.provs key).getLast?

variable {s t : IndexInUse R P} {requests : R → PointOfAdvice P} {provisions : P → Matcher}

omit [DecidableEq R] [DecidableEq P] in
theorem upToDate_initial : UpToDate (⟨.empty requests provisions, []⟩ : IndexInUse R P) where
  wellFormed := ⟨.empty, .empty⟩
  provs _ := rfl
  solution _ _ hr := nomatch hr

variable {r : R}

omit [DecidableEq P] in
theorem UpToDate.notMem_reqs (h : UpToDate s) (hr : ¬ s.index.hasRequest r = true)
    (key : HashVal) : r ∉ s.index.reqs key := by
  intro hmem
  refine hr (Cluster.contains_iff.mpr ?_)
  rwa [h.wellFormed.requestKey_of_mem hmem]

variable {p : P}

omit [DecidableEq R] in
theorem UpToDate.notMem_provs (h : UpToDate s) (hp : ¬ s.index.hasProvision p = true)
    (key : HashVal) : p ∉ s.index.provs key := by
  intro hmem
  refine hp (Cluster.contains_iff.mpr ?_)
  rwa [h.wellFormed.provisionKey_of_mem hmem]

omit [DecidableEq P] in
theorem UpToDate.setRequestBinding (h : UpToDate s) (pattern : Matcher)
    (hr : ∀ key, r ∉ s.index.reqs key) :
    UpToDate { s with index := s.index.setBindingPattern r pattern } where
  wellFormed := by
    refine ⟨h.wellFormed.requests.congr fun key x hx => ?_, h.wellFormed.provisions⟩
    have hne : x ≠ r := by
      rintro rfl
      exact hr key hx
    rw [Index.setBindingPattern_of_ne s.index pattern hne]
  provs := h.provs
  solution key x hx := by
    have hne : x ≠ r := fun heq => hr key (heq ▸ hx)
    rw [Index.setBindingPattern_of_ne s.index pattern hne]
    exact h.solution key x hx

omit [DecidableEq R] in
theorem UpToDate.setProvisionBinding (h : UpToDate s) (pattern : Matcher)
    (hp : ∀ key, p ∉ s.index.provs key) :
    UpToDate { s with index := { s.index with
      provisions := Function.update s.index.provisions p pattern } } where
  wellFormed := by
    refine ⟨h.wellFormed.requests, h.wellFormed.provisions.congr fun key x hx => ?_⟩
    have hne : x ≠ p := by
      rintro rfl
      exact hp key hx
    exact Function.update_of_ne hne _ _
  provs key := by
    refine (h.provs key).trans (filter_congr fun x hx => ?_)
    have hne : x ≠ p := by
      rintro rfl
      refine hp (s.index.provisionKey x) ?_
      rw [h.provs]
      exact mem_filter.mpr ⟨hx, by simp [Index.provisionKey, Matcher.matches]⟩
    simp [hne]
  solution := h.solution

variable {index : Index R P}

omit [DecidableEq P] in
theorem UpToDate.addRequest (h : UpToDate s) (hs : s.index.addRequest r = some index) :
    UpToDate { s with index := index } := by
  obtain ⟨-, hwf, hreqs, hentries, hprov, hrequests⟩ := Index.addRequest_spec h.wellFormed hs
  have hprovs : index.provs = s.index.provs := by
    unfold Index.provs
    rw [hentries]
  refine ⟨hwf, fun key => ?_, fun key x hx => ?_⟩
  · rw [hprovs, h.provs]
    simp only [hprov]
  · rw [hprovs, hrequests]
    by_cases hxr : x = r
    · subst hxr
      obtain rfl : index.requestKey x = key := hwf.requestKey_of_mem hx
      rw [Index.resolution_solvedBy_of_mem mem_cons_self, Index.requestKey, Index.requestKey,
        hrequests, Index.pattern_solvedBy]
    · rw [Index.resolution_solvedBy_of_notMem (by simpa using hxr)]
      refine h.solution key x (((hreqs key x).mp hx).resolve_right fun hnew => hxr hnew.1)

omit [DecidableEq P] in
theorem UpToDate.removeRequest (h : UpToDate s) (hs : s.index.removeRequest r = some index) :
    UpToDate { s with index := index } := by
  obtain ⟨hwf, hreqs, hentries, hprov, hrequests⟩ := Index.removeRequest_spec h.wellFormed hs
  have hprovs : index.provs = s.index.provs := by
    unfold Index.provs
    rw [hentries]
  refine ⟨hwf, fun key => ?_, fun key x hx => ?_⟩
  · rw [hprovs, h.provs]
    simp only [hprov]
  · rw [hprovs, hrequests]
    exact h.solution key x ((hreqs key x).mp hx).1

omit [DecidableEq P] in
theorem UpToDate.modifyRequest (h : UpToDate s) {pattern : Matcher}
    (hs : s.index.rebindRequest r pattern = some index) : UpToDate { s with index := index } := by
  obtain ⟨hwf, hreqs, hentries, hprov, hrequests⟩ := Index.rebindRequest_spec h.wellFormed hs
  have hprovs : index.provs = s.index.provs := by
    unfold Index.provs
    rw [hentries]
  refine ⟨hwf, fun key => ?_, fun key x hx => ?_⟩
  · rw [hprovs, h.provs]
    simp only [hprov]
  · rw [hprovs, hrequests]
    rcases (hreqs key x).mp hx with ⟨hne, hold⟩ | ⟨rfl, rfl⟩
    · rw [Index.resolution_solvedBy_of_notMem (by simpa using hne),
        Index.setBindingPattern_of_ne s.index pattern hne]
      exact h.solution key x hold
    · rw [Index.resolution_solvedBy_of_mem mem_cons_self]

omit [DecidableEq R] [DecidableEq P] in
theorem UpToDate.notMem_reqs_of_ne (h : UpToDate s) {key k : HashVal}
    (hr : r ∈ s.index.reqs key) (hk : key ≠ k) : r ∉ s.index.reqs k := by
  intro hr'
  exact hk ((h.wellFormed.requestKey_of_mem hr).symm.trans (h.wellFormed.requestKey_of_mem hr'))

omit [DecidableEq R] [DecidableEq P] in
theorem matches_iff {key : HashVal} : (s.index.provisions p).matches ⟨key⟩ = true ↔ key = s.index.provisionKey p := by
  rw [Matcher.matches, beq_iff_eq, eq_comm, Index.provisionKey]

omit [DecidableEq R] [DecidableEq P] in
theorem filter_matches_append (l : List P) (p : P) (key : HashVal) :
    (l ++ [p]).filter (fun x => (s.index.provisions x).matches ⟨key⟩) =
      if key = s.index.provisionKey p
      then l.filter (fun x => (s.index.provisions x).matches ⟨key⟩) ++ [p]
      else l.filter fun x => (s.index.provisions x).matches ⟨key⟩ := by
  rw [filter_append, filter_singleton]
  by_cases hk : key = s.index.provisionKey p
  · rw [if_pos hk, matches_iff.mpr hk]
    rfl
  · rw [if_neg hk, Bool.eq_false_iff.mpr fun hm => hk (matches_iff.mp hm)]
    simp

omit [DecidableEq R] in
theorem filter_matches_remove (p : P) (key : HashVal) :
    (s.stack.filter (· ≠ p)).filter (fun x => (s.index.provisions x).matches ⟨key⟩) =
      if key = s.index.provisionKey p
      then (s.stack.filter fun x => (s.index.provisions x).matches ⟨key⟩).filter (· ≠ p)
      else s.stack.filter fun x => (s.index.provisions x).matches ⟨key⟩ := by
  rw [filter_filter]
  split
  · rw [filter_filter]
    exact filter_congr fun x _ => Bool.and_comm _ _
  · next hk =>
      refine filter_congr fun x _ => ?_
      by_cases hx : x = p
      · subst hx
        rw [Bool.eq_false_iff.mpr fun hm => hk (matches_iff.mp hm), Bool.false_and]
      · simp [hx]

omit [DecidableEq R] in
theorem filter_matches_replace {q : P} (hkey : s.index.provisionKey p = s.index.provisionKey q)
    (key : HashVal) :
    (s.stack.map fun x => if x = p then q else x).filter
        (fun x => (s.index.provisions x).matches ⟨key⟩) =
      if key = s.index.provisionKey q
      then (s.stack.filter fun x => (s.index.provisions x).matches ⟨key⟩).map
        fun x => if x = p then q else x
      else s.stack.filter fun x => (s.index.provisions x).matches ⟨key⟩ := by
  have hsame : ((fun x => (s.index.provisions x).matches ⟨key⟩) ∘ fun x => if x = p then q else x) =
      fun x => (s.index.provisions x).matches ⟨key⟩ := by
    funext x
    rw [Function.comp_apply]
    by_cases hx : x = p
    · rw [if_pos hx, hx, Bool.eq_iff_iff, matches_iff, matches_iff, hkey]
    · rw [if_neg hx]
  rw [filter_map, hsame]
  split
  · rfl
  · next hk =>
      refine (map_congr_left fun x hx => if_neg ?_).trans (map_id _)
      rintro rfl
      exact hk ((matches_iff.mp (mem_filter.mp hx).2).trans hkey)

theorem UpToDate.addProvision (h : UpToDate s) (hs : s.index.addProvision p = some index) :
    UpToDate ⟨index, s.stack ++ [p]⟩ := by
  obtain ⟨-, hwf, hprovs, hentries, hprov, hrequests⟩ := Index.addProvision_spec h.wellFormed hs
  have hreqs : index.reqs = s.index.reqs := by
    unfold Index.reqs
    rw [hentries]
  refine ⟨hwf, fun key => ?_, fun key r hr => ?_⟩
  · rw [hprovs, hprov, filter_matches_append, h.provs]
  · rw [hreqs] at hr
    rw [hprovs, hrequests]
    by_cases hk : key = s.index.provisionKey p
    · rw [if_pos hk, getLast?_concat, Index.resolution_solvedBy_of_mem (hk ▸ hr)]
    · rw [if_neg hk, Index.resolution_solvedBy_of_notMem (h.notMem_reqs_of_ne hr hk)]
      exact h.solution key r hr

theorem UpToDate.removeProvision (h : UpToDate s) (hs : s.index.removeProvision p = some index) :
    UpToDate ⟨index, s.stack.filter (· ≠ p)⟩ := by
  obtain ⟨hwf, hprovs, hentries, hprov, hrequests⟩ := Index.removeProvision_spec h.wellFormed hs
  have hreqs : index.reqs = s.index.reqs := by
    unfold Index.reqs
    rw [hentries]
  refine ⟨hwf, fun key => ?_, fun key r hr => ?_⟩
  · rw [hprovs, hprov, filter_matches_remove, h.provs]
  · rw [hreqs] at hr
    rw [hrequests]
    by_cases hk : key = s.index.provisionKey p
    · rw [hk, Index.resolution_solvedBy_of_mem (hk ▸ hr)]
    · rw [Index.resolution_solvedBy_of_notMem (h.notMem_reqs_of_ne hr hk), hprovs, if_neg hk]
      exact h.solution key r hr

theorem UpToDate.modifyProvision_of_ne (h : UpToDate s) {q : P}
    (hkey : s.index.provisionKey p ≠ s.index.provisionKey q) (hs : s.index.modifyProvision p q = some index) :
    UpToDate ⟨index, s.stack.filter (· ≠ p) ++ [q]⟩ := by
  obtain ⟨hwf, hprovs, hentries, hprov, hrequests⟩ :=
    Index.modifyProvision_spec_of_ne h.wellFormed hkey hs
  have hreqs : index.reqs = s.index.reqs := by
    unfold Index.reqs
    rw [hentries]
  refine ⟨hwf, fun key => ?_, fun key r hr => ?_⟩
  · rw [hprovs, hprov, filter_matches_append, filter_matches_remove, h.provs]
    by_cases hk : key = s.index.provisionKey p
    · rw [if_pos hk, if_neg (hk ▸ hkey), if_pos hk]
    · rw [if_neg hk, if_neg hk]
  · rw [hreqs] at hr
    rw [hrequests]
    by_cases hk : key = s.index.provisionKey p
    · rw [hk, Index.resolution_solvedBy_of_mem (hk ▸ hr)]
    · rw [Index.resolution_solvedBy_of_notMem (h.notMem_reqs_of_ne hr hk), hprovs, if_neg hk]
      by_cases hk' : key = s.index.provisionKey q
      · rw [if_pos hk', getLast?_concat, Index.resolution_solvedBy_of_mem (hk' ▸ hr)]
      · rw [if_neg hk', Index.resolution_solvedBy_of_notMem (h.notMem_reqs_of_ne hr hk')]
        exact h.solution key r hr

theorem UpToDate.modifyProvision_of_eq (h : UpToDate s) {q : P}
    (hkey : s.index.provisionKey p = s.index.provisionKey q)
    (htop : s.index.reqs (s.index.provisionKey q) = [] ∨ (s.index.provs (s.index.provisionKey q)).getLast? = some p)
    (hs : s.index.modifyProvision p q = some index) :
    UpToDate ⟨index, s.stack.map fun x => if x = p then q else x⟩ := by
  obtain ⟨-, hwf, hprovs, hentries, hprov, hrequests⟩ :=
    Index.modifyProvision_spec_of_eq h.wellFormed hkey hs
  have hreqs : index.reqs = s.index.reqs := by
    unfold Index.reqs
    rw [hentries]
  refine ⟨hwf, fun key => ?_, fun key r hr => ?_⟩
  · rw [hprovs, hprov, filter_matches_replace hkey, h.provs]
  · rw [hreqs] at hr
    rw [hrequests, hprovs]
    by_cases hk : key = s.index.provisionKey q
    · subst hk
      rw [if_pos rfl, Index.resolution_solvedBy_of_mem hr, getLast?_map]
      rcases htop with hnone | hlast
      · rw [hnone] at hr
        cases hr
      · rw [hlast]
        simp
    · rw [if_neg hk, Index.resolution_solvedBy_of_notMem (h.notMem_reqs_of_ne hr hk)]
      exact h.solution key r hr

/-- Each operation keeps the invariant. -/
theorem UpToDate.step (h : UpToDate s) {op : IndexOp R P} (htop : Topmost s op)
    (hstep : s.step op = some t) : UpToDate t := by
  cases op with
  | setRequestBinding r pattern =>
    unfold IndexInUse.step at hstep
    dsimp only at hstep
    split at hstep
    · cases hstep
    · next hr =>
        cases hstep
        exact h.setRequestBinding pattern (h.notMem_reqs hr)
  | setProvisionBinding p pattern =>
    unfold IndexInUse.step at hstep
    dsimp only at hstep
    split at hstep
    · cases hstep
    · next hp =>
        cases hstep
        exact h.setProvisionBinding pattern (h.notMem_provs hp)
  | addRequest r =>
    simp only [IndexInUse.step, Option.bind_eq_bind, Option.bind_eq_some_iff] at hstep
    obtain ⟨index, hs, ⟨⟩⟩ := hstep
    exact h.addRequest hs
  | modifyRequest r pattern =>
    simp only [IndexInUse.step, Option.bind_eq_bind, Option.bind_eq_some_iff] at hstep
    obtain ⟨index, hs, ⟨⟩⟩ := hstep
    exact h.modifyRequest hs
  | removeRequest r =>
    simp only [IndexInUse.step, Option.bind_eq_bind, Option.bind_eq_some_iff] at hstep
    obtain ⟨index, hs, ⟨⟩⟩ := hstep
    exact h.removeRequest hs
  | addProvision p =>
    simp only [IndexInUse.step, Option.bind_eq_bind, Option.bind_eq_some_iff] at hstep
    obtain ⟨index, hs, ⟨⟩⟩ := hstep
    exact h.addProvision hs
  | modifyProvision p q =>
    simp only [IndexInUse.step, Option.bind_eq_bind, Option.bind_eq_some_iff] at hstep
    obtain ⟨index, hs, hstep⟩ := hstep
    split at hstep
    · next hkey =>
        cases hstep
        exact h.modifyProvision_of_ne hkey hs
    · next hkey =>
        cases hstep
        exact h.modifyProvision_of_eq (not_not.mp hkey) (htop (not_not.mp hkey)) hs
  | removeProvision p =>
    simp only [IndexInUse.step, Option.bind_eq_bind, Option.bind_eq_some_iff] at hstep
    obtain ⟨index, hs, ⟨⟩⟩ := hstep
    exact h.removeProvision hs

theorem upToDate_invariant :
    ((machine requests provisions).restrict Topmost).Invariant UpToDate where
  init s hs := by
    obtain rfl : s = ⟨.empty requests provisions, []⟩ := hs
    exact upToDate_initial
  step _ _ _ h hstep := h.step hstep.1 hstep.2

/-- **The solution of each registered request** is the most recently added matching provision still
present, which is what `findLatestSolution` yields, and no solution is left when there is none: in
each run which modifies provisions in place only when they are on top. -/
theorem solution_isLatest
    (hs : ((machine requests provisions).restrict Topmost).Reachable s) {key : HashVal} {r : R}
    (hr : r ∈ s.index.reqs key) :
    s.index.requestKey r = key ∧
      (s.index.requests r).resolution = s.stack.reverse.find? (fun p =>
        (s.index.provisions p).matches (s.index.requests r).pattern) ∧
      (s.index.requests r).resolution =
        (s.index.provisionEntries key).findLatestSolution (s.index.requests r).pattern := by
  have h := upToDate_invariant.reachable hs
  have hpattern := h.wellFormed.requests.pattern_of_mem hr
  refine ⟨h.wellFormed.requestKey_of_mem hr, ?_, ?_⟩
  · rw [h.solution key r hr, h.provs, getLast?_filter, hpattern]
  · rw [h.solution key r hr, Cluster.findLatestSolution_eq_getLast? fun e he => ?_, Index.provs]
    rw [hpattern, (h.wellFormed.provisions.entry key e he).1]

/-- A request satisfied by the second of two provisions, which then is modified in place. -/
theorem solution_isLatest_modified :
    ∃ s : IndexInUse Nat Nat, (s.index.requests 1).resolution = some 3 ∧
      (s.index.requests 1).resolution = s.stack.reverse.find? (fun p =>
        (s.index.provisions p).matches (s.index.requests 1).pattern) := by
  obtain ⟨t, hreach, ht⟩ := Machine.exists_restrict_reachable_of_exec Topmost step
    (⟨.empty (fun _ => ⟨⟨0⟩, none⟩) (fun _ => ⟨0⟩), []⟩ : IndexInUse Nat Nat)
    [.addProvision 1, .addProvision 2, .addRequest 1, .modifyProvision 2 3]
    (fun t => 1 ∈ t.index.reqs 0 && (t.index.requests 1).resolution == some 3) (by decide)
  simp only [Bool.and_eq_true, decide_eq_true_eq, beq_iff_eq] at ht
  exact ⟨t, ht.2, (solution_isLatest hreach ht.1).2.1⟩

/-- When a provision below the top is modified in place, the requests get the modified provision as
solution, while the latest one would be another. -/
theorem solution_notLatest_of_modified_below :
    ¬ ∀ s : IndexInUse Nat Nat, (machine (fun _ => ⟨⟨0⟩, none⟩) fun _ => ⟨0⟩).Reachable s →
      ∀ key, ∀ r ∈ s.index.reqs key, (s.index.requests r).resolution =
        (s.index.provisionEntries key).findLatestSolution (s.index.requests r).pattern := by
  intro hclaim
  obtain ⟨t, hreach, ht⟩ := Machine.exists_reachable_of_exec step
    (⟨.empty (fun _ => ⟨⟨0⟩, none⟩) (fun _ => ⟨0⟩), []⟩ : IndexInUse Nat Nat)
    [.addProvision 1, .addProvision 2, .addRequest 1, .modifyProvision 1 3]
    (fun t => 1 ∈ t.index.reqs 0 && ((t.index.requests 1).resolution == some 3 &&
      (t.index.provisionEntries 0).findLatestSolution (t.index.requests 1).pattern == some 2))
    (by decide)
  simp only [Bool.and_eq_true, decide_eq_true_eq, beq_iff_eq] at ht
  obtain ⟨hmem, hsolution, hlatest⟩ := ht
  have hsame := hclaim t hreach 0 1 hmem
  rw [hsolution, hlatest] at hsame
  exact absurd hsame (by decide)

end IndexInUse

end Lumiera.Advice
