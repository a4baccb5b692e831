import Lumiera.Common.Advice.Index

/-! # What the index operations do

On well-formed tables all entries in a bucket match each other, so that each loop over requests
publishes one and the same solution. For each operation there is one lemma, which tells the
resulting tables and solutions, and that the tables are well-formed again. -/

namespace Lumiera.Advice

open Function List

/-! ## Well-formed tables -/

/-- **A well-formed table**: every entry sits once in the bucket of the present binding of the entity
it refers to, and its matcher is up to date. -/
structure WellFormedTable {ELM : Type} (table : HashVal → Cluster ELM) (pattern : ELM → Matcher) :
    Prop where
  entry : ∀ key, ∀ e ∈ table key, e.matcher = ⟨key⟩ ∧ pattern e.elm = ⟨key⟩
  nodup : ∀ key, (table key).elms.Nodup

namespace WellFormedTable

variable {ELM : Type} {table : HashVal → Cluster ELM} {pattern : ELM → Matcher} {key : HashVal}
variable {x o n : ELM} {c : Cluster ELM}

theorem empty : WellFormedTable (fun _ => ([] : Cluster ELM)) pattern where
  entry _ _ he := nomatch he
  nodup _ := .nil

theorem pattern_of_mem (h : WellFormedTable table pattern) (hx : x ∈ (table key).elms) : pattern x = ⟨key⟩ := by
  obtain ⟨e, he, rfl⟩ := Cluster.mem_elms.mp hx
  exact (h.entry key e he).2

theorem update (h : WellFormedTable table pattern)
    (hentry : ∀ e ∈ c, e.matcher = ⟨key⟩ ∧ pattern e.elm = ⟨key⟩) (hnodup : c.elms.Nodup) :
    WellFormedTable (Function.update table key c) pattern where
  entry k e he := by
    by_cases hk : k = key
    · subst hk
      rw [update_self] at he
      exact hentry e he
    · rw [update_of_ne hk] at he
      exact h.entry k e he
  nodup k := by
    by_cases hk : k = key
    · subst hk
      rwa [update_self]
    · rw [update_of_ne hk]
      exact h.nodup k

theorem congr {pattern' : ELM → Matcher} (h : WellFormedTable table pattern)
    (hsame : ∀ key, ∀ x ∈ (table key).elms, pattern' x = pattern x) :
    WellFormedTable table pattern' where
  entry k e he := by
    obtain ⟨hm, hp⟩ := h.entry k e he
    exact ⟨hm, (hsame k _ (Cluster.mem_elms.mpr ⟨e, he, rfl⟩)).trans hp⟩
  nodup := h.nodup

variable [DecidableEq ELM]

theorem append (h : WellFormedTable table pattern) (hkey : pattern x = ⟨key⟩)
    (hc : (table key).append ⟨pattern x, x⟩ = some c) : x ∉ (table key).elms ∧ c.elms = (table key).elms ++ [x] ∧
    WellFormedTable (Function.update table key c) pattern := by
  obtain ⟨hnew, rfl⟩ := Cluster.append_eq_some hc
  refine ⟨hnew, by simp [Cluster.elms], h.update ?_ ?_⟩
  · intro e he
    rcases mem_append.mp he with he | he
    · exact h.entry key e he
    · obtain rfl := mem_singleton.mp he
      exact ⟨hkey, hkey⟩
  · rw [Cluster.elms, map_append, nodup_append]
    refine ⟨h.nodup key, by simp, ?_⟩
    rintro a ha b hb rfl
    obtain rfl : a = x := by simpa using hb
    exact hnew ha

theorem remove (h : WellFormedTable table pattern) (hc : (table key).remove x = some c) :
    c.elms = (table key).elms.filter (· ≠ x) ∧ WellFormedTable (Function.update table key c) pattern := by
  rw [Cluster.remove_eq_filter x (h.nodup key)] at hc
  cases hc
  have helms : Cluster.elms ((table key).filter (·.elm ≠ x)) =
      (table key).elms.filter (· ≠ x) := by
    rw [Cluster.elms, Cluster.elms, filter_map]
    rfl
  refine ⟨helms, h.update (fun e he => h.entry key e (mem_of_mem_filter he)) ?_⟩
  rw [helms]
  exact (h.nodup key).filter _

/-- Replacing an entity by another one with the same key. -/
theorem overwrite (h : WellFormedTable table pattern) (hkey : pattern n = ⟨key⟩)
    (hc : (table key).overwrite o ⟨pattern n, n⟩ = some c) :
    o ∈ (table key).elms ∧ c.elms = (table key).elms.map (fun x => if x = o then n else x) ∧
      WellFormedTable (Function.update table key c) pattern := by
  obtain ⟨hin, hdup, rfl⟩ := Cluster.overwrite_eq_some (h.nodup key) hc
  have helms : Cluster.elms ((table key).map fun e =>
      if e.elm = o then (⟨pattern n, n⟩ : Entry ELM) else e) =
      (table key).elms.map (fun x => if x = o then n else x) := by
    rw [Cluster.elms, Cluster.elms, map_map, map_map]
    refine map_congr_left fun e _ => ?_
    by_cases he : e.elm = o <;> simp [he]
  refine ⟨hin, helms, h.update ?_ ?_⟩
  · intro e he
    obtain ⟨e', he', rfl⟩ := mem_map.mp he
    by_cases heq : e'.elm = o
    · rw [if_pos heq]
      exact ⟨hkey, hkey⟩
    · rw [if_neg heq]
      exact h.entry key e' he'
  · rw [helms]
    refine (h.nodup key).map_on fun a ha b hb hab => ?_
    by_cases haold : a = o <;> by_cases hbold : b = o
    · rw [haold, hbold]
    · rw [if_pos haold, if_neg hbold] at hab
      rcases hdup with hsame | hnot
      · exact absurd (hab.symm.trans hsame) hbold
      · exact absurd (hab ▸ hb) hnot
    · rw [if_neg haold, if_pos hbold] at hab
      rcases hdup with hsame | hnot
      · exact absurd (hab.trans hsame) haold
      · exact absurd (hab ▸ ha) hnot
    · rwa [if_neg haold, if_neg hbold] at hab

end WellFormedTable

namespace Index

variable {R P : Type} [DecidableEq R] [DecidableEq P] {s s' : Index R P}

/-- Both tables are well-formed. -/
structure WellFormed (s : Index R P) : Prop where
  requests : WellFormedTable s.requestEntries fun r => (s.requests r).pattern
  provisions : WellFormedTable s.provisionEntries s.provisions

variable {r : R} {key : HashVal}

omit [DecidableEq R] [DecidableEq P] in
theorem WellFormed.requestKey_of_mem (h : s.WellFormed) (hr : r ∈ s.reqs key) : s.requestKey r = key := by
  rw [requestKey, h.requests.pattern_of_mem hr]

variable {p : P}

omit [DecidableEq R] [DecidableEq P] in
theorem WellFormed.provisionKey_of_mem (h : s.WellFormed) (hp : p ∈ s.provs key) : s.provisionKey p = key := by
  rw [provisionKey, h.provisions.pattern_of_mem hp]

/-! ## Publishing -/

variable {c : Cluster R}

omit [DecidableEq P] in
theorem publishAllSolutions_eq (s : Index R P)
    (hc : ∀ e ∈ c, e.matcher = s.provisions p) :
    s.publishAllSolutions c p = { s with requests := solvedBy s.requests c.elms (some p) } := by
  refine forEachRequest_eq s fun e he => ⟨fun s => s.setSolution e.elm (some p), ?_, fun rs => ?_⟩
  · simp [hc e he, Matcher.matches]
  · exact setSolution_solvedBy s rs (some p) e.elm

omit [DecidableEq P] in
theorem publishLatestSolution_eq (s : Index R P) (key : HashVal) (r : R)
    (hprov : ∀ e ∈ s.provisionEntries key, e.matcher = (s.requests r).pattern) :
    s.publishLatestSolution key r = s.setSolution r (s.provs key).getLast? := by
  rw [publishLatestSolution, Cluster.findLatestSolution_eq_getLast? hprov]
  rfl

omit [DecidableEq P] in
theorem retractAllSolutions_eq (s : Index R P)
    (hold : s.provisions p = ⟨key⟩)
    (hc : ∀ e ∈ c, e.matcher = ⟨key⟩ ∧ (s.requests e.elm).pattern = ⟨key⟩)
    (hprov : ∀ e ∈ s.provisionEntries key, e.matcher = ⟨key⟩) :
    s.retractAllSolutions c p key =
      { s with requests := solvedBy s.requests c.elms (s.provs key).getLast? } := by
  refine forEachRequest_eq s fun e he =>
    ⟨fun s => s.publishLatestSolution key e.elm, ?_, fun rs => ?_⟩
  · simp [hold, (hc e he).1, Matcher.matches]
  · have hlatest := publishLatestSolution_eq
      { s with requests := solvedBy s.requests rs (s.provs key).getLast? } key e.elm
      fun e' he' => by rw [pattern_solvedBy, (hc e he).2, hprov e' he']
    exact hlatest.trans (setSolution_solvedBy s rs _ e.elm)

omit [DecidableEq P] in
theorem rewriteAllSolutions_eq (s : Index R P) (p : P) (key : HashVal) {q : P}
    (hc : ∀ e ∈ c, e.matcher = s.provisions q) :
    s.rewriteAllSolutions c p q key =
      { s with requests := solvedBy s.requests c.elms (some q) } := by
  refine forEachRequest_eq s fun e he =>
    ⟨fun s => s.setSolution e.elm (some q), ?_, fun rs => ?_⟩
  · simp [hc e he, Matcher.matches]
  · exact setSolution_solvedBy s rs (some q) e.elm

/-! ## Operations on requests -/

omit [DecidableEq P] in
theorem setSolution_eq (s : Index R P) (r : R) (solution : Option P) :
    s.setSolution r solution = { s with requests := solvedBy s.requests [r] solution } := by
  unfold setSolution
  congr 1
  funext x
  by_cases hx : x = r
  · subst hx
    simp [solvedBy]
  · simp [solvedBy, hx]

omit [DecidableEq P] in
theorem WellFormed.solved (h : s.WellFormed) (rs : List R) (solution : Option P) :
    WellFormed { s with requests := solvedBy s.requests rs solution } where
  requests := h.requests.congr fun _ _ _ => pattern_solvedBy _ _ _ _
  provisions := h.provisions

omit [DecidableEq P] in
theorem elms_update {ELM : Type} (table : HashVal → Cluster ELM) (key : HashVal)
    (c : Cluster ELM) (k : HashVal) :
    (Function.update table key c k).elms = if k = key then c.elms else (table k).elms := by
  by_cases hk : k = key
  · subst hk
    rw [update_self, if_pos rfl]
  · rw [update_of_ne hk, if_neg hk]

omit [DecidableEq P] in
/-- `addRequest` registers the request and publishes the latest solution to it. -/
theorem addRequest_spec (h : s.WellFormed) (hs : s.addRequest r = some s') :
    r ∉ s.reqs (s.requestKey r) ∧ s'.WellFormed ∧
      (∀ k x, x ∈ s'.reqs k ↔ x ∈ s.reqs k ∨ x = r ∧ k = s.requestKey r) ∧
      s'.provisionEntries = s.provisionEntries ∧ s'.provisions = s.provisions ∧
      s'.requests = solvedBy s.requests [r] (s.provs (s.requestKey r)).getLast? := by
  simp only [addRequest, Option.bind_eq_bind, Option.bind_eq_some_iff] at hs
  obtain ⟨c, hc, hs⟩ := hs
  obtain ⟨hnew, helms, htable⟩ := h.requests.append (x := r) rfl hc
  have hwf : (s.setRequestCluster (s.requestKey r) c).WellFormed := ⟨htable, h.provisions⟩
  rw [publishLatestSolution_eq (s.setRequestCluster (s.requestKey r) c) (s.requestKey r) r
    fun e he => (h.provisions.entry _ e he).1, setSolution_eq] at hs
  cases hs
  refine ⟨hnew, hwf.solved _ _, fun k x => ?_, rfl, rfl, rfl⟩
  change x ∈ (Function.update s.requestEntries (s.requestKey r) c k).elms ↔ _
  rw [elms_update]
  by_cases hk : k = s.requestKey r
  · rw [helms, hk]
    simp [reqs, requestKey]
  · simp [hk, reqs]

omit [DecidableEq P] in
/-- `removeRequest` deregisters the request. -/
theorem removeRequest_spec (h : s.WellFormed) (hs : s.removeRequest r = some s') :
    s'.WellFormed ∧ (∀ k x, x ∈ s'.reqs k ↔ x ∈ s.reqs k ∧ x ≠ r) ∧
      s'.provisionEntries = s.provisionEntries ∧ s'.provisions = s.provisions ∧
      s'.requests = s.requests := by
  simp only [removeRequest, Option.bind_eq_bind, Option.bind_eq_some_iff] at hs
  obtain ⟨c, hc, hs⟩ := hs
  obtain ⟨helms, htable⟩ := h.requests.remove hc
  cases hs
  refine ⟨⟨htable, h.provisions⟩, fun k x => ?_, rfl, rfl, rfl⟩
  change x ∈ (Function.update s.requestEntries (s.requestKey r) c k).elms ↔ _
  rw [elms_update]
  by_cases hk : k = s.requestKey r
  · rw [helms, hk]
    simp [reqs]
  · have hother : x ∈ s.reqs k → x ≠ r := by
      rintro hx rfl
      exact hk (h.requestKey_of_mem hx).symm
    rw [if_neg hk]
    exact ⟨fun hx => ⟨hx, hother hx⟩, And.left⟩

/-- Change the binding of a request and adjust its registration (`Request::defineBinding`). -/
def rebindRequest (s : Index R P) (r : R) (pattern : Matcher) : Option (Index R P) :=
  (s.setBindingPattern r pattern).modifyRequest (s.requestKey r) r

omit [DecidableEq P] in
@[simp] theorem setBindingPattern_pattern_self (s : Index R P) (r : R) (pattern : Matcher) :
    ((s.setBindingPattern r pattern).requests r).pattern = pattern := by
  simp [setBindingPattern]

omit [DecidableEq P] in
theorem setBindingPattern_of_ne (s : Index R P) {x : R} (pattern : Matcher) (hx : x ≠ r) :
    (s.setBindingPattern r pattern).requests x = s.requests x := by
  simp [setBindingPattern, hx]

variable {pattern : Matcher}

omit [DecidableEq P] in
theorem setBindingPattern_self (h : (s.requests r).pattern = pattern) : s.setBindingPattern r pattern = s := by
  subst h
  unfold setBindingPattern
  rw [update_eq_self]

omit [DecidableEq P] in
/-- Moving a request into the bucket of its new binding. -/
theorem moveRequest_table (h : s.WellFormed) {c₁ c₂ : Cluster R}
    (hmove : s.requestKey r ≠ pattern.bindingHash)
    (hc₁ : (s.requestEntries pattern.bindingHash).append ⟨pattern, r⟩ = some c₁)
    (hc₂ : (s.requestEntries (s.requestKey r)).remove r = some c₂) :
    WellFormedTable (Function.update (Function.update s.requestEntries pattern.bindingHash c₁)
      (s.requestKey r) c₂) (fun x => ((s.setBindingPattern r pattern).requests x).pattern) ∧
    c₁.elms = s.reqs pattern.bindingHash ++ [r] ∧
    c₂.elms = (s.reqs (s.requestKey r)).filter (· ≠ r) := by
  obtain ⟨helms₂, htable₂⟩ := h.requests.remove hc₂
  have hgone : ∀ k, ∀ x ∈ (Function.update s.requestEntries (s.requestKey r) c₂ k).elms, x ≠ r := by
    rintro k x hx rfl
    rw [elms_update] at hx
    by_cases hk : k = s.requestKey x
    · rw [if_pos hk, helms₂] at hx
      simp at hx
    · rw [if_neg hk] at hx
      exact hk (h.requestKey_of_mem hx).symm
  have hrebound : WellFormedTable (Function.update s.requestEntries (s.requestKey r) c₂)
      fun x => ((s.setBindingPattern r pattern).requests x).pattern :=
    htable₂.congr fun k x hx => by rw [setBindingPattern_of_ne s pattern (hgone k x hx)]
  have hc₁' : (Function.update s.requestEntries (s.requestKey r) c₂ pattern.bindingHash).append
      ⟨((s.setBindingPattern r pattern).requests r).pattern, r⟩ = some c₁ := by
    rwa [update_of_ne hmove.symm, setBindingPattern_pattern_self]
  obtain ⟨-, helms₁, htable₁⟩ := hrebound.append (x := r) (by simp) hc₁'
  rw [update_comm hmove] at htable₁
  rw [update_of_ne hmove.symm] at helms₁
  exact ⟨htable₁, helms₁, helms₂⟩

omit [DecidableEq P] in
/-- **`modifyRequest`** moves the request to the bucket of its new binding, and publishes the latest
solution there. -/
theorem rebindRequest_spec (h : s.WellFormed)
    (hs : s.rebindRequest r pattern = some s') :
    s'.WellFormed ∧
      (∀ k x, x ∈ s'.reqs k ↔ x ≠ r ∧ x ∈ s.reqs k ∨ x = r ∧ k = pattern.bindingHash) ∧
      s'.provisionEntries = s.provisionEntries ∧ s'.provisions = s.provisions ∧
      s'.requests = solvedBy (s.setBindingPattern r pattern).requests [r]
        (s.provs pattern.bindingHash).getLast? := by
  have hkey : (s.setBindingPattern r pattern).requestKey r = pattern.bindingHash := by
    simp [requestKey]
  have hentry : (s.setBindingPattern r pattern).requestEntry r = ⟨pattern, r⟩ := by
    simp [requestEntry]
  have hpublish : ∀ table : HashVal → Cluster R,
      ({ s.setBindingPattern r pattern with requestEntries := table } :
        Index R P).publishLatestSolution pattern.bindingHash r =
      { s.setBindingPattern r pattern with
        requestEntries := table
        requests := solvedBy (s.setBindingPattern r pattern).requests [r]
          (s.provs pattern.bindingHash).getLast? } := by
    intro table
    rw [publishLatestSolution_eq _ _ _ fun e he => ?_, setSolution_eq]
    · rfl
    · exact (h.provisions.entry _ e he).1.trans (setBindingPattern_pattern_self s r pattern).symm
  unfold rebindRequest modifyRequest at hs
  rw [hkey, hentry] at hs
  by_cases hmove : s.requestKey r ≠ pattern.bindingHash
  · rw [if_pos hmove] at hs
    simp only [Option.bind_eq_bind, Option.bind_eq_some_iff] at hs
    obtain ⟨c₁, hc₁, c₂, hc₂, hs⟩ := hs
    have hc₂' : (s.requestEntries (s.requestKey r)).remove r = some c₂ := by
      change (Function.update s.requestEntries pattern.bindingHash c₁ (s.requestKey r)).remove r =
        some c₂ at hc₂
      rwa [update_of_ne hmove] at hc₂
    obtain ⟨htable, helms₁, helms₂⟩ := moveRequest_table h hmove hc₁ hc₂'
    obtain rfl := (congrArg some (hpublish _)).symm.trans hs |> Option.some.inj
    refine ⟨WellFormed.solved (s := { s.setBindingPattern r pattern with requestEntries := _ })
      ⟨htable, h.provisions⟩ _ _, fun k x => ?_, rfl, rfl, rfl⟩
    change x ∈ (Function.update (Function.update s.requestEntries pattern.bindingHash c₁)
      (s.requestKey r) c₂ k).elms ↔ _
    rw [elms_update, elms_update]
    by_cases hk : k = s.requestKey r
    · grind
    · rw [if_neg hk]
      have hother : x ∈ s.reqs k → x ≠ r := by
        rintro hx rfl
        exact hk (h.requestKey_of_mem hx).symm
      by_cases hk' : k = pattern.bindingHash
      · grind
      · rw [if_neg hk']
        change x ∈ s.reqs k ↔ _
        grind
  · rw [if_neg hmove] at hs
    simp only [Option.bind_eq_bind, Option.bind_eq_some_iff] at hs
    obtain ⟨c, hc, hs⟩ := hs
    have hsame : s.setBindingPattern r pattern = s :=
      setBindingPattern_self (congrArg Matcher.mk (not_not.mp hmove))
    rw [hsame] at hpublish hs ⊢
    have hpattern : (s.requests r).pattern = pattern := by
      rw [← setBindingPattern_pattern_self s r pattern, hsame]
    have hc' : (s.requestEntries pattern.bindingHash).overwrite r ⟨(s.requests r).pattern, r⟩ =
        some c := by
      rw [hpattern]
      rwa [hsame] at hc
    obtain ⟨hmem, helms, htable⟩ := h.requests.overwrite (congrArg Matcher.bindingHash hpattern ▸ rfl) hc'
    obtain rfl := (congrArg some (hpublish _)).symm.trans hs |> Option.some.inj
    refine ⟨WellFormed.solved (s := { s with requestEntries := _ }) ⟨htable, h.provisions⟩ _ _,
      fun k x => ?_, rfl, rfl, rfl⟩
    change x ∈ (Function.update s.requestEntries pattern.bindingHash c k).elms ↔ _
    have hkeep : c.elms = s.reqs pattern.bindingHash := by
      rw [helms]
      exact (map_congr_left fun x _ => by split <;> simp [*]).trans (map_id _)
    have hsub : ∀ k, r ∈ s.reqs k → k = pattern.bindingHash := by
      intro k hr
      rw [← h.requestKey_of_mem hr, requestKey, hpattern]
    rw [elms_update]
    by_cases hk : k = pattern.bindingHash
    · grind
    · rw [if_neg hk]
      change x ∈ s.reqs k ↔ _
      grind

/-! ## Operations on provisions -/

/-- `addProvision` puts the provision on top, as solution of all requests with its key. -/
theorem addProvision_spec (h : s.WellFormed) (hs : s.addProvision p = some s') :
    p ∉ s.provs (s.provisionKey p) ∧ s'.WellFormed ∧
      (∀ k, s'.provs k = if k = s.provisionKey p then s.provs k ++ [p] else s.provs k) ∧
      s'.requestEntries = s.requestEntries ∧ s'.provisions = s.provisions ∧
      s'.requests = solvedBy s.requests (s.reqs (s.provisionKey p)) (some p) := by
  simp only [addProvision, Option.bind_eq_bind, Option.bind_eq_some_iff] at hs
  obtain ⟨c, hc, hs⟩ := hs
  obtain ⟨hnew, helms, htable⟩ := h.provisions.append (x := p) rfl hc
  have hwf : (s.setProvisionCluster (s.provisionKey p) c).WellFormed := ⟨h.requests, htable⟩
  have hpublish := publishAllSolutions_eq (s.setProvisionCluster (s.provisionKey p) c)
    (c := s.requestEntries (s.provisionKey p)) (p := p) fun e he => (h.requests.entry _ e he).1
  obtain rfl := (congrArg some hpublish).symm.trans hs |> Option.some.inj
  refine ⟨hnew, hwf.solved _ _, fun k => ?_, rfl, rfl, rfl⟩
  change (Function.update s.provisionEntries (s.provisionKey p) c k).elms = _
  rw [elms_update]
  by_cases hk : k = s.provisionKey p
  · rw [if_pos hk, if_pos hk, helms, hk]
    rfl
  · rw [if_neg hk, if_neg hk]
    rfl

/-- **`removeProvision`** takes the provision away, and publishes what is then the latest solution
to all requests with its key. -/
theorem removeProvision_spec (h : s.WellFormed) (hs : s.removeProvision p = some s') :
    s'.WellFormed ∧
      (∀ k, s'.provs k = if k = s.provisionKey p then (s.provs k).filter (· ≠ p) else s.provs k) ∧
      s'.requestEntries = s.requestEntries ∧ s'.provisions = s.provisions ∧
      s'.requests = solvedBy s.requests (s.reqs (s.provisionKey p))
        (s'.provs (s.provisionKey p)).getLast? := by
  simp only [removeProvision, Option.bind_eq_bind, Option.bind_eq_some_iff] at hs
  obtain ⟨c, hc, hs⟩ := hs
  obtain ⟨helms, htable⟩ := h.provisions.remove hc
  have hwf : (s.setProvisionCluster (s.provisionKey p) c).WellFormed := ⟨h.requests, htable⟩
  have hretract := retractAllSolutions_eq (s.setProvisionCluster (s.provisionKey p) c)
    (c := s.requestEntries (s.provisionKey p)) (p := p) rfl
    (h.requests.entry (s.provisionKey p)) fun e he => (htable.entry _ e he).1
  obtain rfl := (congrArg some hretract).symm.trans hs |> Option.some.inj
  refine ⟨hwf.solved _ _, fun k => ?_, rfl, rfl, rfl⟩
  change (Function.update s.provisionEntries (s.provisionKey p) c k).elms = _
  rw [elms_update]
  by_cases hk : k = s.provisionKey p
  · rw [if_pos hk, if_pos hk, helms, hk]
    rfl
  · rw [if_neg hk, if_neg hk]
    rfl

/-- **`modifyProvision` within a bucket** replaces the provision in place, and publishes it to all
requests with its key. -/
theorem modifyProvision_spec_of_eq (h : s.WellFormed) {q : P}
    (hkey : s.provisionKey p = s.provisionKey q) (hs : s.modifyProvision p q = some s') :
    p ∈ s.provs (s.provisionKey q) ∧ s'.WellFormed ∧
      (∀ k, s'.provs k = if k = s.provisionKey q
        then (s.provs k).map (fun x => if x = p then q else x) else s.provs k) ∧
      s'.requestEntries = s.requestEntries ∧ s'.provisions = s.provisions ∧
      s'.requests = solvedBy s.requests (s.reqs (s.provisionKey q)) (some q) := by
  unfold modifyProvision at hs
  rw [if_neg (not_not.mpr hkey)] at hs
  simp only [Option.bind_eq_bind, Option.bind_eq_some_iff] at hs
  obtain ⟨c, hc, hs⟩ := hs
  obtain ⟨hmem, helms, htable⟩ := h.provisions.overwrite (n := q) rfl hc
  have hwf : (s.setProvisionCluster (s.provisionKey q) c).WellFormed := ⟨h.requests, htable⟩
  have hrewrite := rewriteAllSolutions_eq (s.setProvisionCluster (s.provisionKey q) c) p
    (s.provisionKey q) (c := s.requestEntries (s.provisionKey q)) (q := q)
    fun e he => (h.requests.entry _ e he).1
  obtain rfl := (congrArg some hrewrite).symm.trans hs |> Option.some.inj
  refine ⟨hmem, hwf.solved _ _, fun k => ?_, rfl, rfl, rfl⟩
  change (Function.update s.provisionEntries (s.provisionKey q) c k).elms = _
  rw [elms_update]
  by_cases hk : k = s.provisionKey q
  · rw [if_pos hk, if_pos hk, helms, hk]
    rfl
  · rw [if_neg hk, if_neg hk]
    rfl

/-- **`modifyProvision` into another bucket** puts the new provision on top there, and takes the old
one away from its bucket; the requests of both buckets get the then latest solution. -/
theorem modifyProvision_spec_of_ne (h : s.WellFormed) {q : P}
    (hkey : s.provisionKey p ≠ s.provisionKey q) (hs : s.modifyProvision p q = some s') :
    s'.WellFormed ∧
      (∀ k, s'.provs k = if k = s.provisionKey p then (s.provs k).filter (· ≠ p)
        else if k = s.provisionKey q then s.provs k ++ [q] else s.provs k) ∧
      s'.requestEntries = s.requestEntries ∧ s'.provisions = s.provisions ∧
      s'.requests = solvedBy (solvedBy s.requests (s.reqs (s.provisionKey q)) (some q))
        (s.reqs (s.provisionKey p)) (s'.provs (s.provisionKey p)).getLast? := by
  unfold modifyProvision at hs
  rw [if_pos hkey] at hs
  simp only [Option.bind_eq_bind, Option.bind_eq_some_iff] at hs
  obtain ⟨c₁, hc₁, c₂, hc₂, hs⟩ := hs
  obtain ⟨-, helms₁, htable₁⟩ := h.provisions.append (x := q) rfl hc₁
  obtain ⟨helms₂, htable₂⟩ := htable₁.remove hc₂
  rw [elms_update, if_neg (by exact hkey)] at helms₂
  set t := (s.setProvisionCluster (s.provisionKey q) c₁).setProvisionCluster (s.provisionKey p) c₂
    with ht
  have hwf : t.WellFormed := ⟨h.requests, htable₂⟩
  have hwf' := hwf.solved (s.reqs (s.provisionKey q)) (some q)
  have hpublish : t.publishAllSolutions (t.requestEntries (s.provisionKey q)) q =
      { t with requests := solvedBy t.requests (s.reqs (s.provisionKey q)) (some q) } :=
    publishAllSolutions_eq t fun e he => (h.requests.entry _ e he).1
  rw [hpublish] at hs
  have hretract := retractAllSolutions_eq
    { t with requests := solvedBy t.requests (s.reqs (s.provisionKey q)) (some q) } (p := p) rfl
    (hwf'.requests.entry (s.provisionKey p)) fun e he => (htable₂.entry _ e he).1
  obtain rfl := (congrArg some hretract).symm.trans hs |> Option.some.inj
  refine ⟨hwf'.solved _ _, fun k => ?_, rfl, rfl, rfl⟩
  change (Function.update (Function.update s.provisionEntries (s.provisionKey q) c₁)
    (s.provisionKey p) c₂ k).elms = _
  rw [elms_update, elms_update]
  by_cases hk : k = s.provisionKey p
  · rw [if_pos hk, if_pos hk, helms₂, hk]
    rfl
  · rw [if_neg hk, if_neg hk]
    by_cases hk' : k = s.provisionKey q
    · rw [if_pos hk', if_pos hk', helms₁, hk']
      rfl
    · rw [if_neg hk', if_neg hk']
      rfl

end Index

end Lumiera.Advice
