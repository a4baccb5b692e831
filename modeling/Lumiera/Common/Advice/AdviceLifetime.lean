import Lumiera.Common.Advice.AdviceSystem

/-! # Lifetime of requests, provisions and stored advice

As long as no `Request` is copied, and none is assigned another binding, the index refers to exactly
the requests alive, no request has a solution which is gone, and each piece of advice stored is
discarded once. Copying by default leaves the copy unregistered; assigning by default leaves the
entry of the target in the bucket of its previous binding, where it remains even after the target
was destroyed. -/

namespace Lumiera.Advice

open Function List

open Lumiera.Lib (DelStash)

/-! ## Solutions are registered provisions -/

namespace Index

variable {R P : Type} [DecidableEq R] [DecidableEq P] {s s' : Index R P}

/-- **The solution of each registered request** is registered itself, with the same key. -/
structure Supported (s : Index R P) : Prop where
  wellFormed : s.WellFormed
  solution : ∀ key, ∀ r ∈ s.reqs key, ∀ p, (s.requests r).resolution = some p → p ∈ s.provs key

omit [DecidableEq R] [DecidableEq P] in
theorem WellFormed.notMem_reqs_of_ne (h : s.WellFormed) {key k : HashVal} {r : R}
    (hr : r ∈ s.reqs key) (hk : key ≠ k) : r ∉ s.reqs k := by
  intro hr'
  exact hk ((h.requestKey_of_mem hr).symm.trans (h.requestKey_of_mem hr'))

omit [DecidableEq P] in
theorem Supported.setRequest (h : s.Supported) {r : R} (link : PointOfAdvice P)
    (hr : ∀ key, r ∉ s.reqs key) :
    Supported { s with requests := update s.requests r link } := by
  have hsame : ∀ key, ∀ x ∈ s.reqs key, update s.requests r link x = s.requests x := by
    intro key x hx
    refine update_of_ne ?_ _ _
    rintro rfl
    exact hr key hx
  refine ⟨⟨h.wellFormed.requests.congr fun key x hx => ?_, h.wellFormed.provisions⟩,
    fun key x hx p hp => h.solution key x hx p ?_⟩
  · change (update s.requests r link x).pattern = _
    rw [hsame key x hx]
  · rw [← hsame key x hx]
    exact hp

variable {p : P}

omit [DecidableEq R] in
theorem Supported.setProvision (h : s.Supported) (pattern : Matcher)
    (hp : ∀ key, p ∉ s.provs key) :
    Supported { s with provisions := update s.provisions p pattern } := by
  refine ⟨⟨h.wellFormed.requests, h.wellFormed.provisions.congr fun key x hx => ?_⟩, h.solution⟩
  refine update_of_ne ?_ _ _
  rintro rfl
  exact hp key hx

omit [DecidableEq P] in
theorem Supported.addRequest (h : s.Supported) {r : R} (hs : s.addRequest r = some s') :
    s'.Supported ∧ s'.provs = s.provs ∧ s'.requestKey = s.requestKey ∧
      ∀ k x, x ∈ s'.reqs k ↔ x ∈ s.reqs k ∨ x = r ∧ k = s.requestKey r := by
  obtain ⟨-, hwf, hreqs, hentries, hprov, hrequests⟩ := addRequest_spec h.wellFormed hs
  have hprovs : s'.provs = s.provs := by
    unfold provs
    rw [hentries]
  have hkey : s'.requestKey = s.requestKey := by
    funext x
    rw [requestKey, hrequests, pattern_solvedBy, requestKey]
  refine ⟨⟨hwf, fun key x hx p hp => ?_⟩, hprovs, hkey, hreqs⟩
  rw [hprovs]
  rw [hrequests] at hp
  by_cases hxr : x = r
  · subst hxr
    rw [resolution_solvedBy_of_mem mem_cons_self] at hp
    rw [← hwf.requestKey_of_mem hx, hkey]
    exact mem_of_getLast? hp
  · rw [resolution_solvedBy_of_notMem (by simpa using hxr)] at hp
    exact h.solution key x (((hreqs key x).mp hx).resolve_right fun hnew => hxr hnew.1) p hp

omit [DecidableEq P] in
theorem Supported.removeRequest (h : s.Supported) {r : R} (hs : s.removeRequest r = some s') : s'.Supported ∧
    s'.provs = s.provs ∧ s'.requestKey = s.requestKey ∧ ∀ k x, x ∈ s'.reqs k ↔ x ∈ s.reqs k ∧ x ≠ r := by
  obtain ⟨hwf, hreqs, hentries, hprov, hrequests⟩ := removeRequest_spec h.wellFormed hs
  have hprovs : s'.provs = s.provs := by
    unfold provs
    rw [hentries]
  have hkey : s'.requestKey = s.requestKey := by
    funext x
    rw [requestKey, hrequests, requestKey]
  refine ⟨⟨hwf, fun key x hx p hp => ?_⟩, hprovs, hkey, hreqs⟩
  rw [hprovs]
  rw [hrequests] at hp
  exact h.solution key x ((hreqs key x).mp hx).1 p hp

omit [DecidableEq P] in
theorem Supported.rebindRequest (h : s.Supported) {r : R} {pattern : Matcher}
    (hs : s.rebindRequest r pattern = some s') :
    s'.Supported ∧ s'.provs = s.provs ∧
      (∀ x, s'.requestKey x = if x = r then pattern.bindingHash else s.requestKey x) ∧
      ∀ k x, x ∈ s'.reqs k ↔ x ≠ r ∧ x ∈ s.reqs k ∨ x = r ∧ k = pattern.bindingHash := by
  obtain ⟨hwf, hreqs, hentries, hprov, hrequests⟩ := rebindRequest_spec h.wellFormed hs
  have hprovs : s'.provs = s.provs := by
    unfold provs
    rw [hentries]
  refine ⟨⟨hwf, fun key x hx p hp => ?_⟩, hprovs, fun x => ?_, hreqs⟩
  · rw [hprovs]
    rw [hrequests] at hp
    rcases (hreqs key x).mp hx with ⟨hne, hold⟩ | ⟨rfl, rfl⟩
    · rw [resolution_solvedBy_of_notMem (by simpa using hne),
        setBindingPattern_of_ne s pattern hne] at hp
      exact h.solution key x hold p hp
    · rw [resolution_solvedBy_of_mem mem_cons_self] at hp
      exact mem_of_getLast? hp
  · rw [requestKey, hrequests, pattern_solvedBy]
    by_cases hx : x = r
    · rw [if_pos hx, hx, setBindingPattern_pattern_self]
    · rw [if_neg hx, setBindingPattern_of_ne s pattern hx, requestKey]

/-- **A provision was exchanged**: the old one is not registered any more, and besides those
registered before there is at most the new one. The requests are registered as before. -/
structure Exchanged (s s' : Index R P) (old new : Option P) : Prop where
  supported : s'.Supported
  reqs : s'.reqs = s.reqs
  requestKey : s'.requestKey = s.requestKey
  provisions : s'.provisions = s.provisions
  provs : ∀ key, ∀ p ∈ s'.provs key, (p ∈ s.provs key ∨ new = some p) ∧ old ≠ some p

omit [DecidableEq R] [DecidableEq P] in
theorem Exchanged.of_entries {old new : Option P}
    (hwf : s'.WellFormed) (hentries : s'.requestEntries = s.requestEntries)
    (hprov : s'.provisions = s.provisions)
    (hpattern : ∀ r, (s'.requests r).pattern = (s.requests r).pattern)
    (hsolution : ∀ key, ∀ r ∈ s.reqs key, ∀ p, (s'.requests r).resolution = some p →
      p ∈ s'.provs key)
    (hprovs : ∀ key, ∀ p ∈ s'.provs key, (p ∈ s.provs key ∨ new = some p) ∧ old ≠ some p) :
    Exchanged s s' old new := by
  have hreqs : s'.reqs = s.reqs := by
    unfold Index.reqs
    rw [hentries]
  refine ⟨⟨hwf, by rwa [hreqs]⟩, hreqs, ?_, hprov, hprovs⟩
  funext r
  rw [Index.requestKey, hpattern, Index.requestKey]

theorem Supported.addProvision (h : s.Supported) (hs : s.addProvision p = some s') :
    Exchanged s s' none (some p) := by
  obtain ⟨-, hwf, hprovs, hentries, hprov, hrequests⟩ := addProvision_spec h.wellFormed hs
  refine .of_entries hwf hentries hprov (fun r => ?_) (fun key r hr q hq => ?_) fun key q hq => ?_
  · rw [hrequests, pattern_solvedBy]
  · rw [hrequests] at hq
    rw [hprovs]
    by_cases hk : key = s.provisionKey p
    · rw [resolution_solvedBy_of_mem (hk ▸ hr)] at hq
      rw [if_pos hk]
      exact mem_append_right _ (by simpa using hq.symm)
    · rw [resolution_solvedBy_of_notMem (h.wellFormed.notMem_reqs_of_ne hr hk)] at hq
      rw [if_neg hk]
      exact h.solution key r hr q hq
  · refine ⟨?_, nofun⟩
    rw [hprovs] at hq
    split at hq
    · rcases mem_append.mp hq with hold | hnew
      · exact .inl hold
      · obtain rfl := mem_singleton.mp hnew
        exact .inr rfl
    · exact .inl hq

theorem Supported.removeProvision (h : s.Supported) (hs : s.removeProvision p = some s') :
    Exchanged s s' (some p) none := by
  obtain ⟨hwf, hprovs, hentries, hprov, hrequests⟩ := removeProvision_spec h.wellFormed hs
  refine .of_entries hwf hentries hprov (fun r => ?_) (fun key r hr q hq => ?_) fun key q hq => ?_
  · rw [hrequests, pattern_solvedBy]
  · rw [hrequests] at hq
    by_cases hk : key = s.provisionKey p
    · rw [resolution_solvedBy_of_mem (hk ▸ hr)] at hq
      rw [hk]
      exact mem_of_getLast? hq
    · rw [resolution_solvedBy_of_notMem (h.wellFormed.notMem_reqs_of_ne hr hk)] at hq
      rw [hprovs, if_neg hk]
      exact h.solution key r hr q hq
  · rw [hprovs] at hq
    by_cases hk : key = s.provisionKey p
    · rw [if_pos hk, mem_filter] at hq
      refine ⟨.inl hq.1, ?_⟩
      rintro ⟨⟩
      simp at hq
    · rw [if_neg hk] at hq
      refine ⟨.inl hq, ?_⟩
      rintro ⟨⟩
      exact hk (h.wellFormed.provisionKey_of_mem hq).symm

theorem Supported.modifyProvision_of_eq (h : s.Supported) {q : P} (hne : p ≠ q)
    (hkey : s.provisionKey p = s.provisionKey q) (hs : s.modifyProvision p q = some s') :
    Exchanged s s' (some p) (some q) := by
  obtain ⟨hmem, hwf, hprovs, hentries, hprov, hrequests⟩ :=
    modifyProvision_spec_of_eq h.wellFormed hkey hs
  refine .of_entries hwf hentries hprov (fun r => ?_) (fun key r hr x hx => ?_) fun key x hx => ?_
  · rw [hrequests, pattern_solvedBy]
  · rw [hrequests] at hx
    rw [hprovs]
    by_cases hk : key = s.provisionKey q
    · rw [resolution_solvedBy_of_mem (hk ▸ hr)] at hx
      cases hx
      rw [if_pos hk]
      exact mem_map.mpr ⟨p, hk ▸ hmem, if_pos rfl⟩
    · rw [resolution_solvedBy_of_notMem (h.wellFormed.notMem_reqs_of_ne hr hk)] at hx
      rw [if_neg hk]
      exact h.solution key r hr x hx
  · rw [hprovs] at hx
    by_cases hk : key = s.provisionKey q
    · rw [if_pos hk, mem_map] at hx
      obtain ⟨y, hy, rfl⟩ := hx
      by_cases hyp : y = p
      · rw [if_pos hyp]
        exact ⟨.inr rfl, fun heq => hne (Option.some.inj heq)⟩
      · rw [if_neg hyp]
        exact ⟨.inl hy, fun heq => hyp (Option.some.inj heq).symm⟩
    · rw [if_neg hk] at hx
      refine ⟨.inl hx, ?_⟩
      rintro ⟨⟩
      exact hk ((h.wellFormed.provisionKey_of_mem hx).symm.trans hkey)

/-- Replacing a provision by one in another bucket. -/
theorem Supported.modifyProvision_of_ne (h : s.Supported) {q : P} (hkey : s.provisionKey p ≠ s.provisionKey q)
    (hs : s.modifyProvision p q = some s') : Exchanged s s' (some p) (some q) := by
  obtain ⟨hwf, hprovs, hentries, hprov, hrequests⟩ :=
    modifyProvision_spec_of_ne h.wellFormed hkey hs
  refine .of_entries hwf hentries hprov (fun r => ?_) (fun key r hr x hx => ?_) fun key x hx => ?_
  · rw [hrequests, pattern_solvedBy, pattern_solvedBy]
  · rw [hrequests] at hx
    by_cases hk : key = s.provisionKey p
    · rw [resolution_solvedBy_of_mem (hk ▸ hr)] at hx
      rw [hk]
      exact mem_of_getLast? hx
    · rw [resolution_solvedBy_of_notMem (h.wellFormed.notMem_reqs_of_ne hr hk)] at hx
      rw [hprovs, if_neg hk]
      by_cases hk' : key = s.provisionKey q
      · rw [resolution_solvedBy_of_mem (hk' ▸ hr)] at hx
        rw [if_pos hk']
        exact mem_append_right _ (by simpa using hx.symm)
      · rw [resolution_solvedBy_of_notMem (h.wellFormed.notMem_reqs_of_ne hr hk')] at hx
        rw [if_neg hk']
        exact h.solution key r hr x hx
  · rw [hprovs] at hx
    by_cases hk : key = s.provisionKey p
    · rw [if_pos hk, mem_filter] at hx
      refine ⟨.inl hx.1, ?_⟩
      rintro ⟨⟩
      simp at hx
    · rw [if_neg hk] at hx
      split at hx
      · rcases mem_append.mp hx with hold | hnew
        · refine ⟨.inl hold, ?_⟩
          rintro ⟨⟩
          exact hk (h.wellFormed.provisionKey_of_mem hold).symm
        · obtain rfl := mem_singleton.mp hnew
          refine ⟨.inr rfl, ?_⟩
          rintro ⟨⟩
          exact hkey rfl
      · refine ⟨.inl hx, ?_⟩
        rintro ⟨⟩
        exact hk (h.wellFormed.provisionKey_of_mem hx).symm

theorem Supported.modifyProvision (h : s.Supported) {q : P} (hne : p ≠ q)
    (hs : s.modifyProvision p q = some s') : Exchanged s s' (some p) (some q) := by
  by_cases hkey : s.provisionKey p = s.provisionKey q
  · exact h.modifyProvision_of_eq hne hkey hs
  · exact h.modifyProvision_of_ne hkey hs

end Index

/-! ## Each allocation is discarded once -/

namespace Collaboration

variable {R V A D : Type} [DecidableEq R] [DecidableEq V] [DecidableEq A]

/-- **The allocations so far**: each one is either stored in one buffer, or was discarded once. -/
structure Ledger (stored : A → Option (ActiveProvision D)) (allocations : Nat)
    (discarded : List (Option Nat × Cause)) : Prop where
  serial_lt : ∀ a held, stored a = some held → held.serial < allocations
  serial_inj : ∀ a b held held', stored a = some held → stored b = some held' →
    held.serial = held'.serial → a = b
  once : (discarded.map Prod.fst).Nodup
  known : ∀ x ∈ discarded.map Prod.fst, ∃ n < allocations, x = some n
  accounted : ∀ n < allocations,
    some n ∈ discarded.map Prod.fst ↔ ∀ a held, stored a = some held → held.serial ≠ n

section Ledger

variable {stored : A → Option (ActiveProvision D)} {allocations : Nat}
  {discarded : List (Option Nat × Cause)}

variable {held : ActiveProvision D}

omit [DecidableEq A] in
theorem Ledger.notMem_discarded (h : Ledger stored allocations discarded) {a : A} (ha : stored a = some held) :
    some held.serial ∉ discarded.map Prod.fst := by
  rw [h.accounted _ (h.serial_lt a held ha)]
  exact fun hnone => hnone a held ha rfl

/-- Storing advice in a buffer not in use. -/
theorem Ledger.store (h : Ledger stored allocations discarded) (a : A) (advice : D) : stored a = none →
    Ledger (update stored a (some ⟨allocations, advice⟩)) (allocations + 1) discarded := by
  intro hfree
  have hcases : ∀ b held, update stored a (some ⟨allocations, advice⟩) b = some held →
      b = a ∧ held = ⟨allocations, advice⟩ ∨ b ≠ a ∧ stored b = some held := by
    intro b held hb
    by_cases hba : b = a
    · rw [hba, update_self] at hb
      exact .inl ⟨hba, (Option.some.inj hb).symm⟩
    · rw [update_of_ne hba] at hb
      exact .inr ⟨hba, hb⟩
  refine ⟨fun b held hb => ?_, fun b c held held' hb hc heq => ?_, h.once, fun x hx => ?_,
    fun n hn => ?_⟩
  · rcases hcases b held hb with ⟨-, rfl⟩ | ⟨-, hb⟩
    · exact Nat.lt_succ_self _
    · exact Nat.lt_succ_of_lt (h.serial_lt b held hb)
  · rcases hcases b held hb with ⟨rfl, rfl⟩ | ⟨-, hb'⟩ <;>
      rcases hcases c held' hc with ⟨rfl, rfl⟩ | ⟨-, hc'⟩
    · rfl
    · exact absurd (h.serial_lt c held' hc') (heq ▸ Nat.lt_irrefl _)
    · exact absurd (h.serial_lt b held hb') (heq ▸ Nat.lt_irrefl _)
    · exact h.serial_inj b c held held' hb' hc' heq
  · obtain ⟨n, hn, rfl⟩ := h.known x hx
    exact ⟨n, Nat.lt_succ_of_lt hn, rfl⟩
  · rcases Nat.lt_succ_iff_lt_or_eq.mp hn with hn | rfl
    · rw [h.accounted n hn]
      constructor
      · intro hnone b held hb
        rcases hcases b held hb with ⟨-, rfl⟩ | ⟨-, hb⟩
        · exact Nat.ne_of_gt hn
        · exact hnone b held hb
      · intro hnone b held hb
        refine hnone b held ?_
        rw [update_of_ne, hb]
        rintro rfl
        rw [hfree] at hb
        cases hb
    · constructor
      · intro hmem
        obtain ⟨m, hm, heq⟩ := h.known _ hmem
        exact absurd hm (Option.some.inj heq ▸ Nat.lt_irrefl _)
      · intro hnone
        exact absurd rfl (hnone a ⟨n, advice⟩ (update_self ..))

/-- Discarding what is stored in a buffer. -/
theorem Ledger.release (h : Ledger stored allocations discarded) {a : A} (ha : stored a = some held) (cause : Cause) :
    Ledger (update stored a none) allocations (discarded ++ [(some held.serial, cause)]) := by
  have hcases : ∀ b held', update stored a none b = some held' →
      b ≠ a ∧ stored b = some held' := by
    intro b held' hb
    by_cases hba : b = a
    · rw [hba, update_self] at hb
      cases hb
    · rw [update_of_ne hba] at hb
      exact ⟨hba, hb⟩
  refine ⟨fun b held' hb => h.serial_lt b held' (hcases b held' hb).2,
    fun b c held₁ held₂ hb hc => h.serial_inj b c held₁ held₂ (hcases b held₁ hb).2
      (hcases c held₂ hc).2, ?_, fun x hx => ?_, fun n hn => ?_⟩
  · rw [map_append, nodup_append]
    refine ⟨h.once, nodup_singleton _, ?_⟩
    rintro x hx y hy rfl
    obtain rfl := mem_singleton.mp hy
    exact h.notMem_discarded ha hx
  · rw [map_append, mem_append] at hx
    rcases hx with hx | hx
    · exact h.known x hx
    · obtain rfl := mem_singleton.mp hx
      exact ⟨held.serial, h.serial_lt a held ha, rfl⟩
  · rw [map_append, mem_append, h.accounted n hn]
    constructor
    · rintro (hnone | hsame) b held' hb
      · exact hnone b held' (hcases b held' hb).2
      · obtain ⟨hne, hb⟩ := hcases b held' hb
        have hn' : n = held.serial := by simpa using hsame
        rw [hn']
        exact fun heq => hne (h.serial_inj b a held' held hb ha heq)
    · intro hnone
      by_cases hn' : n = held.serial
      · exact .inr (by simp [hn'])
      · refine .inl fun b held' hb => ?_
        by_cases hba : b = a
        · subst hba
          rw [ha] at hb
          cases hb
          exact Ne.symm hn'
        · exact hnone b held' (by rw [update_of_ne hba, hb])

end Ledger

/-- **The storage is sound**: the deleters registered are those for the buffers in use. -/
structure StorageSound (s : Collaboration R V A D) : Prop where
  nodup : s.adviceDataRegistry.targets.Nodup
  managed : ∀ a, a ∈ s.adviceDataRegistry.targets ↔ (s.stored a).isSome = true
  ledger : Ledger s.stored s.allocations s.discarded

variable {s t : Collaboration R V A D}

omit [DecidableEq R] [DecidableEq V] in
/-- Running the deleters for several buffers in use. -/
theorem foldl_releaseAdviceData (cause : Cause) (as : List A) (hnodup : as.Nodup)
    (s : Collaboration R V A D) (hlive : ∀ a ∈ as, (s.stored a).isSome = true)
    (hledger : Ledger s.stored s.allocations s.discarded) :
    ∃ stored discarded, as.foldl (releaseAdviceData cause) s =
        { s with stored := stored, discarded := discarded } ∧
      (∀ a, stored a = if a ∈ as then none else s.stored a) ∧
      discarded = s.discarded ++ as.map (fun a => ((s.stored a).map (·.serial), cause)) ∧
      Ledger stored s.allocations discarded := by
  induction as generalizing s with
  | nil => exact ⟨s.stored, s.discarded, rfl, fun a => by simp, by simp, hledger⟩
  | cons a as ih =>
    obtain ⟨hnot, hrest⟩ := nodup_cons.mp hnodup
    obtain ⟨held, hheld⟩ := Option.isSome_iff_exists.mp (hlive a mem_cons_self)
    have hserial : (s.stored a).map (·.serial) = some held.serial := by rw [hheld]; rfl
    have hother : ∀ b ∈ as, (releaseAdviceData cause s a).stored b = s.stored b := by
      intro b hb
      have hne : b ≠ a := fun heq => hnot (heq ▸ hb)
      exact update_of_ne hne _ _
    have hlive' : ∀ b ∈ as, ((releaseAdviceData cause s a).stored b).isSome = true := by
      intro b hb
      rw [hother b hb]
      exact hlive b (mem_cons_of_mem _ hb)
    have hledger' : Ledger (releaseAdviceData cause s a).stored s.allocations
        (releaseAdviceData cause s a).discarded := by
      simp only [releaseAdviceData, hserial]
      exact hledger.release hheld cause
    obtain ⟨stored, discarded, heq, hstored, hdiscarded, hres⟩ :=
      ih hrest (releaseAdviceData cause s a) hlive' hledger'
    refine ⟨stored, discarded, heq, fun b => ?_, ?_, hres⟩
    · rw [hstored b]
      by_cases hb : b = a
      · simp [hb, releaseAdviceData]
      · simp [hb, releaseAdviceData]
    · rw [hdiscarded, map_congr_left fun b hb => by rw [hother b hb]]
      simp [releaseAdviceData]

omit [DecidableEq R] [DecidableEq V] in
/-- Discarding an entry in use: its buffer is released, nothing else changes. -/
theorem StorageSound.discardEntry (h : s.StorageSound) {cause : Cause} {previous : Option A}
    (hlive : ∀ a, previous = some a → (s.stored a).isSome = true)
    (hs : s.discardEntry cause previous = some t) :
    ∃ registry stored discarded,
      t = { s with adviceDataRegistry := registry, stored := stored, discarded := discarded } ∧
      (∀ b, stored b = if previous = some b then none else s.stored b) ∧
      discarded = s.discarded ++
        previous.toList.map (fun a => ((s.stored a).map (·.serial), cause)) ∧ t.StorageSound := by
  cases previous with
  | none =>
    cases hs
    exact ⟨_, _, _, rfl, fun b => rfl, by simp, h⟩
  | some a =>
    simp only [Collaboration.discardEntry, Option.bind_eq_bind, Option.bind_eq_some_iff] at hs
    obtain ⟨⟨deleted, registry⟩, hkill, hs⟩ := hs
    obtain ⟨hdeleted, htargets⟩ := DelStash.kill_eq_some h.nodup hkill
    rw [if_pos ((h.managed a).mpr (hlive a rfl))] at hdeleted
    subst hdeleted
    obtain ⟨stored, discarded, heq, hstored, hdisc, hledger⟩ := foldl_releaseAdviceData cause [a]
      (nodup_singleton a) { s with adviceDataRegistry := registry }
      (fun b hb => by rw [mem_singleton.mp hb]; exact hlive a rfl) h.ledger
    have hstored' : ∀ b, stored b = if b = a then none else s.stored b := by
      simpa using hstored
    obtain rfl := (congrArg some heq).symm.trans hs |> Option.some.inj
    refine ⟨registry, stored, discarded, rfl, fun b => ?_, hdisc, ?_, fun b => ?_, hledger⟩
    · rw [hstored' b]
      simp [eq_comm]
    · rw [htargets]
      exact h.nodup.filter _
    · change b ∈ registry.targets ↔ (stored b).isSome = true
      rw [htargets, mem_filter, h.managed, hstored']
      by_cases hb : b = a <;> simp [hb]

/-! ## Index, pointers and storage are consistent -/

/-- **Invariant before shutdown**: the requests alive are registered, the solutions are registered
provisions, registered provisions are stored, and so is the advice of each `Provision` object, which
it shares with no other one. -/
structure Consistent (s : Collaboration R V A D) : Prop where
  running : s.isShutdown = false
  supported : s.index.Supported
  registered : ∀ key r, r ∈ s.index.reqs key ↔ s.alive r = true ∧ key = s.index.requestKey r
  published : ∀ key, ∀ a ∈ s.index.provs key, (s.stored a).isSome = true
  owned : ∀ v link a, s.provisionObjects v = some link → link.resolution = some a →
    (s.stored a).isSome = true
  exclusive : ∀ v w link link' a, s.provisionObjects v = some link →
    s.provisionObjects w = some link' → link.resolution = some a → link'.resolution = some a → v = w
  storage : s.StorageSound

/-- **Invariant after shutdown**: nothing is stored any more. -/
structure ShutDown (s : Collaboration R V A D) : Prop where
  isShutdown : s.isShutdown = true
  released : ∀ a, s.stored a = none
  ledger : Ledger s.stored s.allocations s.discarded

omit [DecidableEq R] [DecidableEq V] [DecidableEq A] in
theorem consistent_initial : Consistent (initial : Collaboration R V A D) where
  running := rfl
  supported := ⟨⟨.empty, .empty⟩, fun _ _ hr => by cases hr⟩
  registered key r := by simp [initial, Index.empty, Index.reqs, Cluster.elms]
  published _ _ ha := by cases ha
  owned _ _ _ hv := by cases hv
  exclusive _ _ _ _ _ hv := by cases hv
  storage := by
    refine ⟨nodup_nil, fun a => ?_, ⟨?_, ?_, nodup_nil, ?_, ?_⟩⟩
    · simp [initial, DelStash.targets, DelStash.empty]
    · exact fun a held hstored => by cases hstored
    · exact fun a b held held' hstored => by cases hstored
    · exact fun x hx => by cases hx
    · exact fun n hn => by cases hn

/-- The advice given by a `Provision` object, as an entry of what was discarded. -/
def given (s : Collaboration R V A D) (v : V) (cause : Cause) : List (Option Nat × Cause) :=
  ((s.provisionObjects v).bind (·.resolution)).toList.map fun a =>
    ((s.stored a).map (·.serial), cause)

/-! ### Provisions -/

variable {v : V}

omit [DecidableEq R] [DecidableEq A] in
theorem Consistent.setProvisionObject (h : s.Consistent) {l : PointOfAdvice A}
    (hlink : ∀ a, l.resolution = some a →
      ∃ old, s.provisionObjects v = some old ∧ old.resolution = some a) :
    (s.setProvisionObject v l).Consistent := by
  have hcases : ∀ w l₁ a, (s.setProvisionObject v l).provisionObjects w = some l₁ →
      l₁.resolution = some a → ∃ l', s.provisionObjects w = some l' ∧ l'.resolution = some a := by
    intro w l a hw hl
    by_cases hwv : w = v
    · subst hwv
      simp only [Collaboration.setProvisionObject, update_self, Option.some.injEq] at hw
      exact hlink a (hw ▸ hl)
    · simp only [Collaboration.setProvisionObject, update_of_ne hwv] at hw
      exact ⟨l, hw, hl⟩
  refine ⟨h.running, h.supported, h.registered, h.published, fun w l a hw hl => ?_,
    fun w w' l l' a hw hw' hl hl' => ?_, ⟨h.storage.nodup, h.storage.managed, h.storage.ledger⟩⟩
  · obtain ⟨l', hw', hl'⟩ := hcases w l a hw hl
    exact h.owned w l' a hw' hl'
  · obtain ⟨m, hw, hm⟩ := hcases w l a hw hl
    obtain ⟨m', hw', hm'⟩ := hcases w' l' a hw' hl'
    exact h.exclusive w w' m m' a hw hw' hm hm'

omit [DecidableEq R] [DecidableEq A] in
theorem Consistent.deleteProvision (h : s.Consistent)
    (hs : s.deleteProvision v = some t) : t.Consistent ∧ t.discarded = s.discarded := by
  simp only [Collaboration.deleteProvision, Option.bind_eq_bind, Option.bind_eq_some_iff] at hs
  obtain ⟨link, -, ⟨⟩⟩ := hs
  have hcases : ∀ w l, update s.provisionObjects v none w = some l →
      s.provisionObjects w = some l := by
    intro w l hw
    by_cases hwv : w = v
    · rw [hwv, update_self] at hw
      cases hw
    · rwa [update_of_ne hwv] at hw
  exact ⟨⟨h.running, h.supported, h.registered, h.published,
    fun w l a hw => h.owned w l a (hcases w l hw),
    fun w w' l l' a hw hw' => h.exclusive w w' l l' a (hcases w l hw) (hcases w' l' hw'),
    ⟨h.storage.nodup, h.storage.managed, h.storage.ledger⟩⟩, rfl⟩

variable {pattern : Matcher}

omit [DecidableEq R] [DecidableEq V] in
/-- Storing advice in a buffer, which thereby is in use, yet not referred to by any object. -/
theorem Consistent.storeCopy (h : s.Consistent) {advice : D} {buffer : A}
    (hs : s.storeCopy pattern advice buffer = some t) :
    t.Consistent ∧ t.provisionObjects = s.provisionObjects ∧ (t.stored buffer).isSome = true ∧
      (∀ v link, s.provisionObjects v = some link → link.resolution ≠ some buffer) ∧
      t.discarded = s.discarded ∧ ∀ v, t.given v = s.given v := by
  unfold Collaboration.storeCopy at hs
  split at hs
  · cases hs
  next hfree =>
    simp only [Option.bind_eq_bind, Option.bind_eq_some_iff] at hs
    obtain ⟨registry, hmanage, ⟨⟩⟩ := hs
    obtain ⟨hnew, htargets⟩ := DelStash.manage_eq_some hmanage
    have hnone : s.stored buffer = none := Option.not_isSome_iff_eq_none.mp hfree
    have hkeep : ∀ a, (s.stored a).isSome = true →
        (update s.stored buffer (some ⟨s.allocations, advice⟩) a).isSome = true := by
      intro a ha
      by_cases hab : a = buffer
      · rw [hab, update_self]
        rfl
      · rwa [update_of_ne hab]
    have hunpublished : ∀ key, buffer ∉ s.index.provs key :=
      fun key hmem => hfree (h.published key buffer hmem)
    have hunused : ∀ v link, s.provisionObjects v = some link → link.resolution ≠ some buffer :=
      fun v link hv hl => hfree (h.owned v link buffer hv hl)
    refine ⟨⟨h.running, h.supported.setProvision pattern hunpublished, h.registered,
      fun key a ha => hkeep a (h.published key a ha),
      fun v link a hv hl => hkeep a (h.owned v link a hv hl), h.exclusive, ?_, fun a => ?_,
      h.storage.ledger.store buffer advice hnone⟩, rfl, ?_, hunused, rfl, fun v => ?_⟩
    · rw [htargets, nodup_append]
      refine ⟨h.storage.nodup, nodup_singleton _, ?_⟩
      rintro a ha b hb rfl
      exact hnew (mem_singleton.mp hb ▸ ha)
    · rw [htargets, mem_append, h.storage.managed]
      by_cases hab : a = buffer
      · simp [hab]
      · simp [hab]
    · simp
    · funext cause
      refine map_congr_left fun a ha => ?_
      obtain ⟨link, hv, hl⟩ := Option.bind_eq_some_iff.mp (Option.mem_toList.mp ha)
      have hne : a ≠ buffer := by
        rintro rfl
        exact hunused v link hv hl
      dsimp only
      rw [update_of_ne hne]

omit [DecidableEq R] in
/-- **Exchanging the advice of a provision**, within the index and within the `Provision` object,
and discarding what it was before. -/
theorem Consistent.exchange (h : s.Consistent) {link : PointOfAdvice A} {new : Option A}
    {index : Index R A} {cause : Cause} (hv : s.provisionObjects v = some link)
    (hnew : ∀ n, new = some n → (s.stored n).isSome = true ∧
      ∀ w l, s.provisionObjects w = some l → l.resolution ≠ some n)
    (hx : Index.Exchanged s.index index link.resolution new)
    (hs : Collaboration.discardEntry
      { s.setProvisionObject v { link with resolution := new } with index := index } cause
      link.resolution = some t) :
    t.Consistent ∧ t.discarded = s.discarded ++ s.given v cause := by
  have hsound : StorageSound
      { s.setProvisionObject v { link with resolution := new } with index := index } :=
    ⟨h.storage.nodup, h.storage.managed, h.storage.ledger⟩
  obtain ⟨registry, stored, discarded, rfl, hstored, hdiscarded, hsound'⟩ :=
    hsound.discardEntry (fun a ha => h.owned v link a hv ha) hs
  refine ⟨?_, by rw [given, hv]; exact hdiscarded⟩
  have hkeep : ∀ a, link.resolution ≠ some a → (s.stored a).isSome = true →
      (stored a).isSome = true := by
    intro a hne ha
    rw [hstored, if_neg hne]
    exact ha
  -- the advice of an object thereafter: the new one, or what was there and is not the one discarded
  have hcases : ∀ w l a, (s.setProvisionObject v { link with resolution := new }).provisionObjects w
      = some l → l.resolution = some a → w = v ∧ new = some a ∨
        w ≠ v ∧ s.provisionObjects w = some l := by
    intro w l a hw hl
    by_cases hwv : w = v
    · subst hwv
      simp only [Collaboration.setProvisionObject, update_self, Option.some.injEq] at hw
      exact .inl ⟨rfl, by rw [← hl, ← hw]⟩
    · simp only [Collaboration.setProvisionObject, update_of_ne hwv] at hw
      exact .inr ⟨hwv, hw⟩
  refine ⟨h.running, hx.supported, fun key r => ?_, fun key a ha => ?_, fun w l a hw hl => ?_,
    fun w w' l l' a hw hw' hl hl' => ?_, hsound'⟩
  · rw [hx.reqs, hx.requestKey]
    exact h.registered key r
  · obtain ⟨hold | hnew', hne⟩ := hx.provs key a ha
    · exact hkeep a hne (h.published key a hold)
    · exact hkeep a hne (hnew a hnew').1
  · rcases hcases w l a hw hl with ⟨rfl, hnew'⟩ | ⟨hwv, hw⟩
    · exact hkeep a ((hnew a hnew').2 w link hv) (hnew a hnew').1
    · exact hkeep a (fun hsame => hwv (h.exclusive w v l link a hw hv hl hsame))
        (h.owned w l a hw hl)
  · rcases hcases w l a hw hl with ⟨hwv, hnew'⟩ | ⟨-, hold⟩ <;>
      rcases hcases w' l' a hw' hl' with ⟨hwv', hnew''⟩ | ⟨-, hold'⟩
    · exact hwv.trans hwv'.symm
    · exact absurd hl' ((hnew a hnew').2 w' l' hold')
    · exact absurd hl ((hnew a hnew'').2 w l hold)
    · exact h.exclusive w w' l l' a hold hold' hl hl'

theorem Consistent.publishProvision (h : s.Consistent) {new : A}
    (hlive : (s.stored new).isSome = true)
    (hfresh : ∀ w l, s.provisionObjects w = some l → l.resolution ≠ some new)
    (hs : s.publishProvision v (some new) = some t) :
    t.Consistent ∧ t.discarded = s.discarded ++ s.given v .superseded := by
  simp only [Collaboration.publishProvision, Option.bind_eq_bind, Option.bind_eq_some_iff] at hs
  obtain ⟨link, hv, index, hindex, hs⟩ := hs
  have hnew : ∀ n, some new = some n → (s.stored n).isSome = true ∧
      ∀ w l, s.provisionObjects w = some l → l.resolution ≠ some n := by
    rintro n ⟨⟩
    exact ⟨hlive, hfresh⟩
  refine h.exchange hv hnew ?_ hs
  cases hres : link.resolution with
  | none =>
    rw [hres] at hindex
    exact h.supported.addProvision (p := new) hindex
  | some previous =>
    rw [hres] at hindex
    have hne : previous ≠ new := by
      rintro rfl
      exact hfresh v link hv hres
    exact h.supported.modifyProvision hne hindex

theorem Consistent.discardSolutions (h : s.Consistent) (hs : s.discardSolutions v = some t) : t.Consistent ∧
    t.discarded = s.discarded ++ s.given v .retracted := by
  simp only [Collaboration.discardSolutions, Option.bind_eq_bind, Option.bind_eq_some_iff] at hs
  obtain ⟨link, hv, index, hindex, hs⟩ := hs
  have hnew : ∀ n, (none : Option A) = some n → (s.stored n).isSome = true ∧
      ∀ w l, s.provisionObjects w = some l → l.resolution ≠ some n := nofun
  refine h.exchange hv hnew ?_ hs
  cases hres : link.resolution with
  | none =>
    rw [hres] at hindex
    cases hindex
    exact ⟨h.supported, rfl, rfl, rfl, fun key p hp => ⟨.inl hp, nofun⟩⟩
  | some existing =>
    rw [hres] at hindex
    exact h.supported.removeProvision hindex

theorem Consistent.setAdvice (h : s.Consistent) {pieceOfAdvice : D} {buffer : A}
    (hs : s.setAdvice v pieceOfAdvice buffer = some t) :
    t.Consistent ∧ t.discarded = s.discarded ++ s.given v .superseded := by
  simp only [Collaboration.setAdvice, Option.bind_eq_bind, Option.bind_eq_some_iff] at hs
  obtain ⟨link, -, s', hstore, hs⟩ := hs
  obtain ⟨h', hobjects, hlive, hfresh, hdiscarded, hgiven⟩ := h.storeCopy hstore
  rw [← hdiscarded, ← hgiven]
  exact h'.publishProvision hlive (by rwa [hobjects]) hs

theorem Consistent.bindProvision (h : s.Consistent) {buffer : A} (hs : s.bindProvision v pattern buffer = some t) :
    t.Consistent ∧ t.discarded = s.discarded ++ s.given v .superseded := by
  simp only [Collaboration.bindProvision, Option.bind_eq_bind, Option.bind_eq_some_iff] at hs
  obtain ⟨link, hv, hs⟩ := hs
  have hbound := h.setProvisionObject (v := v) (l := { link with pattern := pattern })
    fun a ha => ⟨link, hv, ha⟩
  have hgiven : (s.setProvisionObject v { link with pattern := pattern }).given v .superseded =
      s.given v .superseded := by
    simp [given, Collaboration.setProvisionObject, hv]
  split at hs
  · next hnone =>
      cases hs
      refine ⟨hbound, ?_⟩
      rw [given, hv, Option.bind_some, hnone]
      simp [Collaboration.setProvisionObject]
  · simp only [Option.bind_eq_some_iff] at hs
    obtain ⟨held, -, s', hstore, hs⟩ := hs
    obtain ⟨h', hobjects, hlive, hfresh, hdiscarded, hgiven'⟩ := hbound.storeCopy hstore
    rw [← hgiven, ← hgiven']
    obtain ⟨ht, htdiscarded⟩ := h'.publishProvision hlive (by rwa [hobjects]) hs
    exact ⟨ht, htdiscarded.trans (by rw [hdiscarded]; rfl)⟩

/-! ### Requests -/

omit [DecidableEq R] [DecidableEq V] [DecidableEq A] in
theorem Consistent.notMem_reqs (h : s.Consistent) {r : R} (hr : ¬ s.alive r = true)
    (key : HashVal) : r ∉ s.index.reqs key :=
  fun hmem => hr ((h.registered key r).mp hmem).1

omit [DecidableEq R] [DecidableEq V] [DecidableEq A] in
theorem Consistent.of_requests (h : s.Consistent) {index : Index R A} {alive : R → Bool}
    (hsupported : index.Supported) (hprovs : index.provs = s.index.provs)
    (hregistered : ∀ key r, r ∈ index.reqs key ↔ alive r = true ∧ key = index.requestKey r) :
    Consistent { s with index := index, alive := alive } := by
  refine ⟨h.running, hsupported, hregistered, ?_, h.owned, h.exclusive,
    ⟨h.storage.nodup, h.storage.managed, h.storage.ledger⟩⟩
  rw [hprovs]
  exact h.published

omit [DecidableEq V] [DecidableEq A] in
theorem Consistent.newRequest (h : s.Consistent) {r : R} (hs : s.newRequest r pattern = some t) :
    t.Consistent ∧ t.discarded = s.discarded := by
  unfold Collaboration.newRequest at hs
  split at hs
  · cases hs
  next hr =>
    simp only [Option.bind_eq_bind, Option.bind_eq_some_iff] at hs
    obtain ⟨index, hadd, ⟨⟩⟩ := hs
    obtain ⟨hsupported, hprovs, hkey, hreqs⟩ :=
      (h.supported.setRequest ⟨pattern, none⟩ (h.notMem_reqs hr)).addRequest hadd
    refine ⟨h.of_requests hsupported hprovs fun key x => ?_, rfl⟩
    rw [hreqs, hkey]
    change x ∈ s.index.reqs key ∨ _ ↔ _
    rw [h.registered]
    by_cases hx : x = r
    · subst hx
      simp [hr, setRequestObject]
    · simp [hx, Index.requestKey, setRequestObject]

omit [DecidableEq V] [DecidableEq A] in
theorem Consistent.bindRequest (h : s.Consistent) {r : R} (hs : s.bindRequest r pattern = some t) :
    t.Consistent ∧ t.discarded = s.discarded := by
  unfold Collaboration.bindRequest at hs
  split at hs
  · cases hs
  next hr =>
    simp only [Option.bind_eq_bind, Option.bind_eq_some_iff] at hs
    obtain ⟨index, hrebind, ⟨⟩⟩ := hs
    obtain ⟨hsupported, hprovs, hkey, hreqs⟩ := h.supported.rebindRequest hrebind
    refine ⟨h.of_requests hsupported hprovs fun key x => ?_, rfl⟩
    rw [hreqs, hkey, h.registered]
    by_cases hx : x = r
    · subst hx
      simp [not_not.mp hr]
    · simp [hx]

omit [DecidableEq V] [DecidableEq A] in
theorem Consistent.deleteRequest (h : s.Consistent) {r : R}
    (hs : s.deleteRequest r = some t) : t.Consistent ∧ t.discarded = s.discarded := by
  unfold Collaboration.deleteRequest at hs
  split at hs
  · cases hs
  next hr =>
    simp only [Option.bind_eq_bind, Option.bind_eq_some_iff] at hs
    obtain ⟨index, hremove, ⟨⟩⟩ := hs
    obtain ⟨hsupported, hprovs, hkey, hreqs⟩ := h.supported.removeRequest hremove
    refine ⟨h.of_requests hsupported hprovs fun key x => ?_, rfl⟩
    rw [hreqs, hkey, h.registered]
    by_cases hx : x = r
    · simp [hx]
    · simp [hx]

omit [DecidableEq V] [DecidableEq A] in
/-- Assigning to a request another one with the same binding. -/
theorem Consistent.assignRequest (h : s.Consistent) {r o : R} (hkey : s.index.requestKey r = s.index.requestKey o)
    (hs : s.assignRequest r o = some t) : t.Consistent ∧ t.discarded = s.discarded := by
  unfold Collaboration.assignRequest at hs
  split at hs
  · cases hs
  next halive =>
    rw [not_or, not_not, not_not] at halive
    cases hs
    set requests := update s.index.requests r (s.index.requests o) with hrequests
    have hpattern : ∀ x, (requests x).pattern = (s.index.requests x).pattern := by
      intro x
      by_cases hx : x = r
      · subst hx
        rw [hrequests, update_self]
        exact (congrArg Matcher.mk hkey).symm
      · rw [hrequests, update_of_ne hx]
    refine ⟨h.of_requests ⟨⟨h.supported.wellFormed.requests.congr fun key x _ => hpattern x,
      h.supported.wellFormed.provisions⟩, fun key x hx p hp => ?_⟩ rfl fun key x => ?_, rfl⟩
    · change (requests x).resolution = some p at hp
      by_cases hxr : x = r
      · subst hxr
        rw [hrequests, update_self] at hp
        obtain ⟨-, rfl⟩ := (h.registered key x).mp hx
        exact h.supported.solution _ o ((h.registered _ o).mpr ⟨halive.2, hkey⟩) p hp
      · rw [hrequests, update_of_ne hxr] at hp
        exact h.supported.solution key x hx p hp
    · have hkeys : Index.requestKey { s.index with requests := requests } x =
          s.index.requestKey x := by
        rw [Index.requestKey, hpattern, Index.requestKey]
      change x ∈ s.index.reqs key ↔ update s.alive r true x = true ∧ _
      rw [hkeys, h.registered]
      by_cases hx : x = r
      · subst hx
        simp [halive.1]
      · rw [update_of_ne hx]

/-! ## Consistency throughout all runs -/

/-- **What is discarded by a call**: the advice superseded or retracted, and all which is still
stored at shutdown. -/
def discards (s : Collaboration R V A D) : ClientOp R V A D → List (Option Nat × Cause)
  | .setAdvice v _ _ => s.given v .superseded
  | .bindProvision v _ _ => s.given v .superseded
  | .retractAdvice v => s.given v .retracted
  | .shutdown => s.adviceDataRegistry.targets.reverse.map fun a =>
    ((s.stored a).map (·.serial), .shutdown)
  | _ => []

omit [DecidableEq R] [DecidableEq V] in
theorem Consistent.shutdown (h : s.Consistent) :
    s.shutdown.ShutDown ∧ s.shutdown.discarded = s.discarded ++ s.discards .shutdown := by
  obtain ⟨stored, discarded, heq, hstored, hdiscarded, hledger⟩ := foldl_releaseAdviceData .shutdown
    s.adviceDataRegistry.targets.reverse (nodup_reverse.mpr h.storage.nodup)
    { s with adviceDataRegistry := s.adviceDataRegistry.killAll.2 }
    (fun a ha => (h.storage.managed a).mp (mem_reverse.mp ha)) h.storage.ledger
  have hshutdown : s.shutdown = { s with
      adviceDataRegistry := s.adviceDataRegistry.killAll.2
      stored := stored
      discarded := discarded
      isShutdown := true } := by
    unfold Collaboration.shutdown
    dsimp only [DelStash.killAll]
    rw [DelStash.killAll] at heq
    rw [heq]
  rw [hshutdown]
  refine ⟨⟨rfl, fun a => ?_, hledger⟩, hdiscarded⟩
  change stored a = none
  rw [hstored]
  by_cases ha : a ∈ s.adviceDataRegistry.targets
  · rw [if_pos (mem_reverse.mpr ha)]
  · rw [if_neg (fun hmem => ha (mem_reverse.mp hmem))]
    exact Option.not_isSome_iff_eq_none.mp fun hlive => ha ((h.storage.managed a).mpr hlive)

/-- **No request is copied**, and none is assigned another one with a different binding. -/
def Uncopied (s : Collaboration R V A D) : ClientOp R V A D → Prop
  | .copyRequest _ _ => False
  | .assignRequest r o => s.index.requestKey r = s.index.requestKey o
  | _ => True

instance (s : Collaboration R V A D) (op : ClientOp R V A D) : Decidable (Uncopied s op) := by
  cases op <;> unfold Uncopied <;> infer_instance

omit [DecidableEq R] [DecidableEq A] in
theorem Consistent.setProvisionObject_none (h : s.Consistent) (v : V) (pattern : Matcher) :
    ((s.setProvisionObject v ⟨pattern, none⟩).Consistent ∨ (s.setProvisionObject v ⟨pattern, none⟩).ShutDown) ∧
    (s.setProvisionObject v ⟨pattern, none⟩).discarded = s.discarded ++ [] :=
  ⟨.inl (h.setProvisionObject nofun), (append_nil _).symm⟩

/-- Each call keeps the invariant, until shutdown, and discards what it should. -/
theorem Consistent.step (h : s.Consistent) {op : ClientOp R V A D} (hop : Uncopied s op) (hs : s.step op = some t) :
    (t.Consistent ∨ t.ShutDown) ∧ t.discarded = s.discarded ++ s.discards op := by
  have hnone : ∀ {t : Collaboration R V A D}, t.Consistent ∧ t.discarded = s.discarded →
      (t.Consistent ∨ t.ShutDown) ∧ t.discarded = s.discarded ++ [] :=
    fun ⟨ht, hdiscarded⟩ => ⟨.inl ht, by rw [hdiscarded, append_nil]⟩
  unfold Collaboration.step at hs
  rw [if_neg (by simp [h.running])] at hs
  cases op with
  | newProvision v pattern =>
    dsimp only [Collaboration.newProvision] at hs
    split at hs
    · cases hs
    · cases hs
      exact h.setProvisionObject_none v pattern
  | copyProvision v o =>
    simp only [Collaboration.copyProvision, Option.bind_eq_bind, Option.bind_eq_some_iff] at hs
    obtain ⟨link, -, hs⟩ := hs
    split at hs
    · cases hs
    · cases hs
      exact h.setProvisionObject_none v link.pattern
  | assignProvision v o =>
    simp only [Collaboration.assignProvision, Option.bind_eq_bind, Option.bind_eq_some_iff] at hs
    obtain ⟨_, -, link, -, hs⟩ := hs
    split at hs
    · cases hs
      exact hnone ⟨h, rfl⟩
    · cases hs
      exact h.setProvisionObject_none v link.pattern
  | deleteProvision v => exact hnone (h.deleteProvision hs)
  | setAdvice v pieceOfAdvice buffer => exact (h.setAdvice hs).imp_left .inl
  | retractAdvice v => exact (h.discardSolutions hs).imp_left .inl
  | bindProvision v pattern buffer => exact (h.bindProvision hs).imp_left .inl
  | newRequest r pattern => exact hnone (h.newRequest hs)
  | copyRequest r o => exact hop.elim
  | assignRequest r o => exact hnone (h.assignRequest hop hs)
  | bindRequest r pattern => exact hnone (h.bindRequest hs)
  | deleteRequest r => exact hnone (h.deleteRequest hs)
  | shutdown =>
    cases hs
    exact h.shutdown.imp_left .inr

theorem ShutDown.step (h : s.ShutDown) {op : ClientOp R V A D} : s.step op = none := by
  unfold Collaboration.step
  rw [if_pos h.isShutdown]

theorem consistent_invariant :
    (machine.restrict Uncopied).Invariant
      fun s : Collaboration R V A D => s.Consistent ∨ s.ShutDown where
  init s hs := by
    obtain rfl : s = initial := hs
    exact .inl consistent_initial
  step s op t h hstep := by
    obtain ⟨hop, hs⟩ := hstep
    change s.step op = some t at hs
    rcases h with h | h
    · exact (h.step hop hs).1
    · rw [h.step] at hs
      cases hs

/-- **The index refers exactly to the requests alive**, once, under the key of the present binding
and with an up to date matcher. -/
structure RequestsIndexed (s : Collaboration R V A D) : Prop where
  entries : ∀ key e, e ∈ s.index.requestEntries key ↔
    ∃ r, s.alive r = true ∧ s.index.requestKey r = key ∧ e = s.index.requestEntry r
  nodup : ∀ key, (s.index.requestEntries key).Nodup

/-- **No dangling solutions**: each request alive has either no solution, or the solution is stored,
was not discarded, and its binding matches the one of the request. -/
def SolutionsValid (s : Collaboration R V A D) : Prop :=
  ∀ r, s.alive r = true → ∀ a, (s.index.requests r).resolution = some a →
    ∃ held, s.stored a = some held ∧ some held.serial ∉ s.discarded.map Prod.fst ∧
      (s.index.provisions a).matches (s.index.requests r).pattern = true

/-- **Each allocation is discarded once**: it is not discarded twice, up to then it is stored, and
each further call discards what it supersedes, retracts, or at shutdown all which is left. -/
structure DiscardedOnce (s : Collaboration R V A D) : Prop where
  once : (s.discarded.map Prod.fst).Nodup
  allocated : ∀ x ∈ s.discarded.map Prod.fst, ∃ n < s.allocations, x = some n
  stored : ∀ n < s.allocations, some n ∉ s.discarded.map Prod.fst ↔
    ∃ a held, s.stored a = some held ∧ held.serial = n
  step : ∀ op t, Uncopied s op → s.step op = some t → t.discarded = s.discarded ++ s.discards op
  shutdown : s.isShutdown = true → ∀ n < s.allocations, some n ∈ s.discarded.map Prod.fst

omit [DecidableEq R] [DecidableEq V] [DecidableEq A] in
theorem Consistent.requestsIndexed (h : s.Consistent) : s.RequestsIndexed := by
  refine ⟨fun key e => ⟨fun he => ?_, ?_⟩,
    fun key => List.Nodup.of_map _ (h.supported.wellFormed.requests.nodup key)⟩
  · have hmem : e.elm ∈ s.index.reqs key := Cluster.mem_elms.mpr ⟨e, he, rfl⟩
    obtain ⟨halive, hkey⟩ := (h.registered key e.elm).mp hmem
    obtain ⟨hmatcher, hpattern⟩ := h.supported.wellFormed.requests.entry key e he
    have hentry : e = s.index.requestEntry e.elm := by
      rw [Index.requestEntry, hpattern, ← hmatcher]
    exact ⟨e.elm, halive, hkey.symm, hentry⟩
  · rintro ⟨r, halive, rfl, rfl⟩
    obtain ⟨e, he, helm⟩ := Cluster.mem_elms.mp ((h.registered _ r).mpr ⟨halive, rfl⟩)
    obtain ⟨hmatcher, hpattern⟩ := h.supported.wellFormed.requests.entry _ e he
    have hentry : s.index.requestEntry r = e := by
      rw [helm] at hpattern
      rw [Index.requestEntry, hpattern, ← hmatcher, ← helm]
    rwa [hentry]

omit [DecidableEq R] [DecidableEq V] [DecidableEq A] in
theorem Consistent.solutionsValid (h : s.Consistent) : s.SolutionsValid := by
  intro r halive a ha
  have hreg := (h.registered _ r).mpr ⟨halive, rfl⟩
  have hprov := h.supported.solution _ r hreg a ha
  obtain ⟨held, hheld⟩ := Option.isSome_iff_exists.mp (h.published _ a hprov)
  refine ⟨held, hheld, h.storage.ledger.notMem_discarded hheld, ?_⟩
  rw [h.supported.wellFormed.provisions.pattern_of_mem hprov]
  simp [Matcher.matches, Index.requestKey]

theorem Ledger.discardedOnce (h : Ledger s.stored s.allocations s.discarded)
    (hstep : ∀ op t, Uncopied s op → s.step op = some t →
      t.discarded = s.discarded ++ s.discards op)
    (hshutdown : s.isShutdown = true → ∀ n < s.allocations, some n ∈ s.discarded.map Prod.fst) :
    s.DiscardedOnce := by
  refine ⟨h.once, h.known, fun n hn => ?_, hstep, hshutdown⟩
  rw [h.accounted n hn]
  push Not
  rfl

/-- **Advice collaboration is consistent**, as long as no request is copied or assigned one with
another binding: up to shutdown the index refers to the requests alive and no solution dangles, and
each piece of advice stored is discarded once. -/
theorem collaboration_consistent (hs : (machine.restrict Uncopied).Reachable s) :
    (s.isShutdown = false → s.RequestsIndexed ∧ s.SolutionsValid) ∧ s.DiscardedOnce := by
  rcases consistent_invariant.reachable hs with h | h
  · refine ⟨fun _ => ⟨h.requestsIndexed, h.solutionsValid⟩, h.storage.ledger.discardedOnce
      (fun op t hop hstep => (h.step hop hstep).2) fun hdown => ?_⟩
    rw [h.running] at hdown
    cases hdown
  · refine ⟨fun hrunning => ?_, h.ledger.discardedOnce (fun op t _ hstep => ?_) fun _ n hn => ?_⟩
    · rw [h.isShutdown] at hrunning
      cases hrunning
    · rw [h.step] at hstep
      cases hstep
    · rw [h.ledger.accounted n hn]
      intro a held ha
      rw [h.released] at ha
      cases ha

/-- Advice set and bound anew, using the buffers 0 and 1, while there is a request. -/
theorem collaboration_consistent_rebound :
    ∃ s : Collaboration Nat Nat Nat Nat, (s.index.requests 1).resolution = some 1 ∧
      (s.isShutdown = false → s.RequestsIndexed ∧ s.SolutionsValid) ∧ s.DiscardedOnce := by
  obtain ⟨t, hreach, ht⟩ := Machine.exists_restrict_reachable_of_exec Uncopied Collaboration.step
    (initial : Collaboration Nat Nat Nat Nat)
    [.newProvision 1 ⟨5⟩, .newRequest 1 ⟨7⟩, .setAdvice 1 42 0, .bindProvision 1 ⟨7⟩ 1]
    (fun t => (t.index.requests 1).resolution == some 1) (by decide)
  exact ⟨t, by simpa using ht, collaboration_consistent hreach⟩

/-- A request to which another one with a different binding was assigned, and which was destroyed
thereafter, remains in the index. -/
theorem request_indexed_after_destruction : ¬ ∀ s : Collaboration Nat Nat Nat Nat, machine.Reachable s →
    s.isShutdown = false → s.RequestsIndexed := by
  intro hclaim
  obtain ⟨t, hreach, ht⟩ := Machine.exists_reachable_of_exec Collaboration.step
    (initial : Collaboration Nat Nat Nat Nat)
    [.newRequest 1 ⟨5⟩, .newRequest 2 ⟨7⟩, .assignRequest 1 2, .deleteRequest 1]
    (fun t => !t.isShutdown && (!t.alive 1 && t.index.requestEntries 5 == [⟨⟨5⟩, 1⟩])) (by decide)
  simp only [Bool.and_eq_true, Bool.not_eq_true', beq_iff_eq] at ht
  obtain ⟨hrunning, hdead, hentries⟩ := ht
  obtain ⟨r, halive, -, hentry⟩ := ((hclaim t hreach hrunning).entries 5 ⟨⟨5⟩, 1⟩).mp
    (by rw [hentries]; exact mem_singleton_self _)
  obtain rfl : 1 = r := congrArg Entry.elm hentry
  rw [hdead] at halive
  cases halive

end Collaboration

end Lumiera.Advice
