import Lumiera.Vault.Gear.BlockFlowAllocate

/-! # The order of Epochs

In all runs of the allocation scheme, the active Epochs are ordered by deadline; to be precise, by the
deadline as it is read back, which is limited to the valid time range: Epochs beyond the end of this
range all have the deadline `Time::MAX`.

This relies on the handles being `Settled`: when an allocation raises an exception for lack of memory,
then its handle remains at the end of the Epochs known at that time. Used again after other Epochs were
created there, it sets up the first of them anew, discarding whatever is allocated therein. -/

namespace Lumiera.Vault.Gear.Extents

open List

open Lumiera.Vault.Mem (ExtentFamily)
open Lumiera.Vault.Mem.ExtentFamily

namespace BlockFlow

open EpochIter

variable {conf : Config} {flow flow' : BlockFlow}

/-- The handles in use are all known to the pool. -/
structure Sane (flow : BlockFlow) : Prop where
  valid : flow.alloc_.Valid
  handles_known : ∀ it ∈ flow.handles, HandleKnown flow.alloc_ it

/-- The call does not use a handle which was left behind. -/
def SettledCall (flow : BlockFlow) : Call → Prop
  | .create handle _ => flow.Settled handle
  | _ => True

theorem initial_sane (conf : Config) (uninitialised : Nat → EpochGate) : (initial conf uninitialised).Sane := by
  have hcnt : 0 < conf.initialEpochCnt := lt_of_lt_of_le (by decide) (Nat.le_max_right _ 2)
  exact ⟨initial_valid hcnt, by simp [initial]⟩

variable {new : List Nat}

theorem HandleKnown.mono (hext : Extends flow flow' new) {it : EpochIter}
    (h : HandleKnown flow.alloc_ it) : HandleKnown flow'.alloc_ it :=
  ⟨lt_of_lt_of_le h.1 hext.slotCnt_le, fun e he => hext.kept e (h.2 e he)⟩

theorem HandleKnown.of_at {alloc : ExtentFamily} {it : EpochIter} {pos : Nat}
    (hat : At alloc it pos) : HandleKnown alloc it := by
  refine ⟨hat.index_lt, fun e he => ?_⟩
  rw [hat.curr] at he
  exact mem_extents_of_active (mem_of_getElem? he)

/-! ## What one call does -/

/-- **The effect of a call on the active Epochs**: Epochs are added at the end, or discarded at the
front; those which remain keep their deadline, and their slots are only used up. -/
inductive Effect (flow flow' : BlockFlow) : Prop
  | extended (new : List Nat) (ext : Extends flow flow' new)
  | discarded (cnt : Nat) (hactive : flow'.active = flow.active.drop cnt)
      (hstorage : flow'.storage = flow.storage)

theorem announceAdditionalFlow_alloc (conf : Config) (flow : BlockFlow) (additionalFps : FrameRate) :
    (flow.announceAdditionalFlow conf additionalFps).2.alloc_ = flow.alloc_ ∧
      (flow.announceAdditionalFlow conf additionalFps).2.storage = flow.storage ∧
      (flow.announceAdditionalFlow conf additionalFps).2.handles = flow.handles := by
  cases hspacing : conf.adaptedSpacing flow.getEpochStep additionalFps with
  | none =>
    rw [announceAdditionalFlow, hspacing]
    exact ⟨rfl, rfl, rfl⟩
  | some spacing =>
    rw [announceAdditionalFlow, hspacing]
    exact ⟨alloc_withStep flow _, storage_withStep flow _, handles_withStep flow _⟩

/-- **What a call can do**: `until` can be refused, and then leaves the flow as it is. -/
inductive Performed (conf : Config) (flow : BlockFlow) : BlockFlow → Call → Prop
  | refused {deadline memory} : Performed conf flow flow (.until deadline memory)
  | given {deadline memory flow' nr pos new} (hgiven : Given conf deadline flow flow' nr pos new) :
    Performed conf flow flow' (.until deadline memory)
  | allocated {handle memory result it it' mid new} (hit : flow.handles[handle]? = some it)
      (halloc : Allocated flow result it' mid new)
      (hclaimed : ∀ pos, At flow.alloc_ it pos → Claimed pos flow result it' mid new) :
    Performed conf flow { mid with handles := mid.handles.set handle it' } (.create handle memory)
  | cleared {deadline mid alloc} (hreg : regulate conf flow (flow.discardable deadline) = some mid)
      (hdrop : flow.alloc_.dropOld (flow.discardable deadline).length = some alloc) :
    Performed conf flow { mid with alloc_ := alloc } (.discardBefore deadline)
  | announced {additionalFps} :
    Performed conf flow (flow.announceAdditionalFlow conf additionalFps).2 (.announceAdditionalFlow additionalFps)
  | pending {epoch rest} :
    Performed conf flow (flow.withGate epoch { flow.storage epoch with rest := rest }) (.ioPending epoch rest)

variable {outcome : Outcome}

theorem perform_cases (hconf : conf.Sound) (h : flow.Sane) {call : Call} (hsettled : flow.SettledCall call)
    (hstep : perform conf flow call = some (outcome, flow')) : Performed conf flow flow' call := by
  cases call with
  | «until» deadline memory =>
    simp only [perform, Option.map_eq_some_iff, Prod.exists] at hstep
    obtain ⟨result, after, huntil, rfl, rfl⟩ := hstep
    rcases until_cases conf h.valid deadline memory with
      ⟨hnone, -⟩ | ⟨error, herror⟩ | ⟨nr, flow₁, pos, new, hok, hgiven⟩
    · rw [hnone] at huntil
      cases huntil
    · rw [herror] at huntil
      cases huntil
      exact .refused
    · rw [hok] at huntil
      cases huntil
      exact .given hgiven
  | create handle memory =>
    simp only [perform, Option.map_eq_some_iff, Prod.exists] at hstep
    obtain ⟨result, after, hcreate, rfl, rfl⟩ := hstep
    obtain ⟨it, it', mid, new, hit, halloc, rfl, hclaimed⟩ :=
      create_spec hconf h.valid h.handles_known hsettled hcreate
    exact .allocated hit halloc hclaimed
  | discardBefore deadline =>
    simp only [perform, Option.map_eq_some_iff] at hstep
    obtain ⟨after, hdiscard, -, rfl⟩ := hstep
    obtain ⟨alloc, hdrop, heq⟩ := discardBefore_eq conf h.valid deadline
    rw [heq] at hdiscard
    obtain ⟨mid, hreg, rfl⟩ := Option.map_eq_some_iff.mp hdiscard
    exact .cleared hreg hdrop
  | announceAdditionalFlow additionalFps =>
    cases hstep
    exact .announced
  | ioPending epoch rest =>
    cases hstep
    exact .pending

/-- Whatever the call is, the handles are known afterwards. -/
theorem perform_sane (hconf : conf.Sound) (h : flow.Sane) {call : Call} (hsettled : flow.SettledCall call)
    (hstep : perform conf flow call = some (outcome, flow')) : flow'.Sane ∧ Effect flow flow' := by
  cases perform_cases hconf h hsettled hstep with
  | refused => exact ⟨h, .extended [] (.refl h.valid)⟩
  | @given _ _ _ _ _ new hgiven =>
    obtain ⟨it, hhandles, hat⟩ := hgiven.handle
    refine ⟨⟨hgiven.ext.valid, ?_⟩, .extended new hgiven.ext⟩
    intro it' hit'
    rw [hhandles] at hit'
    rcases mem_append.mp hit' with hold | hnew
    · exact (h.handles_known it' hold).mono hgiven.ext
    · rw [mem_singleton.mp hnew]
      exact .of_at hat
  | @allocated _ _ _ _ _ _ new _ halloc _ =>
    have hext := halloc.ext
    refine ⟨⟨hext.valid, ?_⟩, .extended new ⟨hext.valid, hext.active_eq, hext.kept,
      hext.slotCnt_le, hext.dead_eq, hext.next_le⟩⟩
    intro it hit
    rw [halloc.handles_eq] at hit
    rcases mem_or_eq_of_mem_set hit with hold | rfl
    · exact (h.handles_known it hold).mono hext
    · exact ⟨halloc.index_lt, halloc.known⟩
  | cleared hreg hdrop =>
    obtain ⟨-, hstorage, hhandles⟩ := regulate_alloc hreg
    obtain ⟨hactive, hextents⟩ := dropOld_active h.valid hdrop
    refine ⟨⟨dropOld_valid h.valid hdrop, ?_⟩, .discarded _ hactive hstorage⟩
    intro it hit
    rw [hhandles] at hit
    obtain ⟨hindex, hcurr⟩ := h.handles_known it hit
    refine ⟨?_, fun e he => ?_⟩
    · rw [slotCnt, hextents]
      exact hindex
    · rw [hextents]
      exact hcurr e he
  | @announced additionalFps =>
    obtain ⟨halloc, hstorage, hhandles⟩ := announceAdditionalFlow_alloc conf flow
      additionalFps
    refine ⟨⟨by rw [halloc]; exact h.valid, ?_⟩, .discarded 0 ?_ hstorage⟩
    · rw [hhandles, halloc]
      exact h.handles_known
    · rw [active, halloc, drop_zero, active]
  | pending =>
    refine ⟨⟨h.valid, h.handles_known⟩, .extended [] ⟨h.valid, (append_nil _).symm,
      fun _ h => h, le_refl _, ?_, ?_⟩⟩
    · intro e _
      rw [storage_withGate]
      split_ifs with heq
      · rw [heq]
      · rfl
    · intro e _
      rw [storage_withGate]
      split_ifs with heq
      · rw [heq]
      · exact le_refl _

theorem Effect.keeps (h : Effect flow flow') {e : Nat} (he : e ∈ flow.active) :
    (flow'.storage e).deadline = (flow.storage e).deadline ∧
      (flow'.storage e).next ≤ (flow.storage e).next := by
  cases h with
  | extended new ext => exact ⟨ext.deadline_eq he, ext.next_le e he⟩
  | discarded cnt hactive hstorage =>
    rw [hstorage]
    exact ⟨rfl, le_refl _⟩

/-! ## The order of deadlines -/

variable {deadline : Int}

section Order

variable {R : Int → Int → Prop}

/-- The relation holds from a time to a later one, when both are limited to the time range. -/
def Later (R : Int → Int → Prop) : Prop :=
  ∀ s t, Lib.Time.MIN ≤ s → s < t → R (limitedTime s) (limitedTime t)

theorem Later.add (hlater : Later R) (gate : EpochGate) {δ : Int}
    (hδ : 0 < δ ∨ 0 ≤ δ ∧ ∀ t, R t t) : R gate.deadline (limitedTime (gate.deadline + δ)) := by
  obtain ⟨hlo, hhi⟩ := gate.deadline_range
  have hsame := limitedTime_of_range hlo hhi
  rcases hδ with hpos | ⟨hnonneg, hrefl⟩
  · have h := hlater gate.deadline (gate.deadline + δ) hlo (by omega)
    rwa [hsame] at h
  · rcases hnonneg.lt_or_eq with hpos | hzero
    · have h := hlater gate.deadline (gate.deadline + δ) hlo (by omega)
      rwa [hsame] at h
    · rw [← hzero, Int.add_zero, hsame]
      exact hrefl _

theorem related_last {l : List Int} (hl : l.Pairwise R) {last t : Int}
    (hlast : l.getLast? = some last) (ht : t ∈ l) : t = last ∨ R t last := by
  obtain ⟨front, rfl⟩ := getLast?_eq_some_iff.mp hlast
  rw [pairwise_append] at hl
  rcases mem_append.mp ht with hfront | hend
  · exact .inr (hl.2.2 t hfront last (by simp))
  · exact .inl (mem_singleton.mp hend)

theorem ordered_of_extends (htrans : ∀ s t u, R s t → R t u → R s u) (hext : Extends flow flow' new)
    (hord : flow.deadlines.Pairwise R) (hnew : (new.map fun e => (flow'.storage e).deadline).Pairwise R)
    (hlast : ∀ e ∈ new, ∀ last ∈ flow.active.getLast?, R (flow.storage last).deadline (flow'.storage e).deadline) :
    flow'.deadlines.Pairwise R := by
  rw [hext.deadlines_eq, pairwise_append]
  refine ⟨hord, hnew, ?_⟩
  intro t ht u hu
  obtain ⟨e, he, rfl⟩ := mem_map.mp hu
  have hne : flow.active ≠ [] := by
    rintro hnil
    simp [deadlines, hnil] at ht
  have hget : flow.active.getLast? = some (flow.active.getLast hne) :=
    getLast?_eq_some_getLast hne
  have hdl : flow.deadlines.getLast? = some (flow.storage (flow.active.getLast hne)).deadline := by
    rw [deadlines, getLast?_map, hget]
    rfl
  have hend := hlast e he _ hget
  rcases related_last hord hdl ht with rfl | hrel
  · exact hend
  · exact htrans _ _ _ hrel hend

/-- The Epochs of a grid are in order. -/
theorem IsGrid.ordered (hlater : Later R) (hgrid : IsGrid conf deadline flow flow' new) :
    (new.map fun e => (flow'.storage e).deadline).Pairwise R ∧ ∀ e ∈ new, ∀ last ∈ flow.active.getLast?,
    R (flow.storage last).deadline (flow'.storage e).deadline := by
  obtain ⟨last, hlast, -, hstep, n, -, -, hlen, hset⟩ := hgrid
  obtain ⟨hlo, -⟩ := (flow.storage last).deadline_range
  constructor
  · rw [pairwise_map, pairwise_iff_getElem]
    intro i j hi hj hij
    have hgi := hset i new[i] (getElem?_eq_getElem hi)
    have hgj := hset j new[j] (getElem?_eq_getElem hj)
    rw [hgi, hgj]
    show R (limitedTime ((flow.storage last).deadline + ((i : Int) + 1) * flow.epochStep_))
      (limitedTime ((flow.storage last).deadline + ((j : Int) + 1) * flow.epochStep_))
    have hpos : 0 ≤ ((i : Int) + 1) * flow.epochStep_ := mul_nonneg (by omega) hstep.le
    have hlt : ((i : Int) + 1) * flow.epochStep_ < ((j : Int) + 1) * flow.epochStep_ := by
      apply mul_lt_mul_of_pos_right _ hstep
      omega
    exact hlater _ _ (by omega) (by omega)
  · intro e he last' hlast'
    obtain rfl : last = last' := by
      rw [hlast] at hlast'
      exact Option.some.inj hlast'
    obtain ⟨i, hi⟩ := mem_iff_getElem?.mp he
    rw [hset i e hi]
    have hpos : 0 < ((i : Int) + 1) * flow.epochStep_ := mul_pos (by omega) hstep
    exact hlater.add _ (.inl hpos)

/-- Every call keeps the order: strictly, given that the epoch step is positive. -/
theorem perform_ordered (hconf : conf.Sound) (htrans : ∀ s t u, R s t → R t u → R s u) (hlater : Later R)
    (h : flow.Sane) (hord : flow.deadlines.Pairwise R) {call : Call} (hsettled : flow.SettledCall call)
    (hstep : 0 < flow.epochStep_ ∨ ∀ t, R t t) (hperform : perform conf flow call = some (outcome, flow')) :
    flow'.deadlines.Pairwise R := by
  have hdrop : ∀ {cnt : Nat}, flow'.active = flow.active.drop cnt → flow'.storage = flow.storage →
      flow'.deadlines.Pairwise R := by
    intro cnt hactive hstorage
    rw [deadlines, hactive, hstorage, map_drop]
    exact hord.sublist (drop_sublist _ _)
  cases perform_cases hconf h hsettled hperform with
  | refused => exact hord
  | given hgiven =>
    rcases hgiven.created with ⟨hnil, e, rfl, -, -⟩ | ⟨rfl, -, -, -⟩ | ⟨hgrid, -⟩
    · exact ordered_of_extends htrans hgiven.ext hord (pairwise_singleton _ _)
        (by simp [hnil])
    · exact ordered_of_extends htrans hgiven.ext hord .nil (by simp)
    · obtain ⟨hnew, hlast⟩ := hgrid.ordered hlater
      exact ordered_of_extends htrans hgiven.ext hord hnew hlast
  | @allocated _ _ _ _ _ mid new _ halloc _ =>
    have hnew : (new.map fun e => (mid.storage e).deadline).Pairwise R := by
      have hle := halloc.new_le
      rcases new with _ | ⟨e, _ | ⟨e', rest⟩⟩
      · exact .nil
      · exact pairwise_singleton _ _
      · simp at hle
    show mid.deadlines.Pairwise R
    refine ordered_of_extends htrans halloc.ext hord hnew ?_
    intro e he last hlast
    obtain ⟨last', hlast', δ, hδ, hpos, hdead⟩ := halloc.new_fresh e he
    obtain rfl : last' = last := by
      rw [hlast'] at hlast
      exact Option.some.inj hlast
    have hdl : (mid.storage e).deadline = limitedTime ((flow.storage last').deadline + δ) := by
      rw [EpochGate.deadline, hdead]
    rw [hdl]
    rcases hstep with hstep | hrefl
    · exact hlater.add _ (.inl (hpos hstep))
    · exact hlater.add _ (.inr ⟨hδ, hrefl⟩)
  | cleared hreg hdropOld => exact hdrop (dropOld_active h.valid hdropOld).1 (regulate_alloc hreg).2.1
  | @announced additionalFps =>
    obtain ⟨halloc, hstorage, -⟩ := announceAdditionalFlow_alloc conf flow additionalFps
    rwa [deadlines, active, halloc, hstorage]
  | @pending epoch rest =>
    have hsame : (flow.withGate epoch { flow.storage epoch with rest := rest }).deadlines
        = flow.deadlines := by
      apply map_congr_left
      intro e _
      rw [storage_withGate]
      split_ifs with heq
      · rw [heq]
        rfl
      · rfl
    rwa [hsame]

end Order

/-! ## Runs which can be evaluated -/

instance (flow : BlockFlow) (handle : Nat) : Decidable (flow.Settled handle) :=
  inferInstanceAs (Decidable (∀ it ∈ flow.handles[handle]?, it.curr_ = none → it.index = _))

instance (flow : BlockFlow) (call : Call) : Decidable (flow.SettledCall call) :=
  match call with
  | .create handle _ => inferInstanceAs (Decidable (flow.Settled handle))
  | .until _ _ | .discardBefore _ | .announceAdditionalFlow _ | .ioPending _ _ => isTrue trivial

/-- The state after a call. -/
def next (conf : Config) (flow : BlockFlow) (call : Call) : Option BlockFlow :=
  (perform conf flow call).map Prod.snd

theorem exists_reachable (conf : Config) (C : BlockFlow → Call → Prop) [∀ flow call, Decidable (C flow call)]
    (uninitialised : Nat → EpochGate) (calls : List Call) (p : BlockFlow → Bool)
    (h : (Machine.exec (Machine.confine C (next conf)) (initial conf uninitialised) calls).any p
      = true) : ∃ flow, ((machine conf).restrict C).Reachable flow ∧ p flow = true := by
  obtain ⟨flow, hreach, hp⟩ := Machine.exists_restrict_reachable_of_exec C (next conf)
    (initial conf uninitialised) calls p h
  refine ⟨flow, hreach.mono ?_ ?_, hp⟩
  · rintro flow rfl
    exact ⟨uninitialised, rfl⟩
  · rintro flow call flow' ⟨hC, hstep⟩
    obtain ⟨⟨outcome, flow''⟩, hperform, rfl⟩ := Option.map_eq_some_iff.mp hstep
    exact ⟨hC, outcome, hperform⟩

theorem default_sound : Config.default.Sound := by
  refine ⟨by decide, by decide +kernel, by decide +kernel, ?_, ?_, ?_, ?_⟩ <;>
    norm_num [Config.default]

/-! ## Epochs in the order of their deadlines -/

/-- Strictly ascending within the time range; beyond there is only `Time::MAX`. -/
def Ascending (s t : Int) : Prop := s < t ∨ s = Lib.Time.MAX ∧ t = Lib.Time.MAX

theorem Ascending.trans (r s t : Int) (h : Ascending r s) (h' : Ascending s t) : Ascending r t := by
  unfold Ascending at *
  omega

theorem Ascending.le {s t : Int} (h : Ascending s t) : s ≤ t := by
  unfold Ascending at h
  omega

theorem Ascending.later : Later Ascending := by
  intro s t hlo hlt
  have hmono := limitedTime_mono hlt.le
  by_cases hmax : limitedTime s < limitedTime t
  · exact .inl hmax
  · rcases lt_or_ge s Lib.Time.MAX with hs | hs
    · have hself := limitedTime_of_range hlo hs.le
      have hnext := limitedTime_mono (Int.add_one_le_of_lt hlt)
      have hin := limitedTime_of_range (t := s + 1) (by omega) (by omega)
      omega
    · have hend := limitedTime_mono hs
      have hcap := limitedTime_of_range (t := Lib.Time.MAX) (by decide) (le_refl _)
      have hle := limitedTime_le s
      exact .inr ⟨by omega, by omega⟩

/-- The call is made while the epoch step is positive, and does not use a handle left behind. -/
def Regular (flow : BlockFlow) (call : Call) : Prop :=
  0 < flow.epochStep_ ∧ flow.SettledCall call

instance (flow : BlockFlow) (call : Call) : Decidable (flow.Regular call) :=
  inferInstanceAs (Decidable (_ ∧ _))

theorem ascending_of_reachable (hconf : conf.Sound) (hreach : ((machine conf).restrict Regular).Reachable flow) :
    flow.Sane ∧ flow.deadlines.Pairwise Ascending := by
  refine Machine.Invariant.reachable (P := fun flow => flow.Sane ∧ flow.deadlines.Pairwise Ascending)
    ⟨?_, ?_⟩ hreach
  · rintro flow ⟨uninitialised, rfl⟩
    refine ⟨initial_sane conf uninitialised, ?_⟩
    exact .nil
  · rintro flow call flow' ⟨hsane, hord⟩ ⟨⟨hpos, hsettled⟩, outcome, hstep⟩
    exact ⟨(perform_sane hconf hsane hsettled hstep).1,
      perform_ordered hconf Ascending.trans Ascending.later hsane hord hsettled (.inl hpos) hstep⟩

/-- **What `until` promises** for a deadline: the handle is for the first active Epoch which covers the
deadline, and the grid is extended by as many Epochs as needed, spaced by the current epoch step; only
the last of them can be beyond the time range. -/
structure Granted (deadline : Int) (flow flow' : BlockFlow) (nr : Nat) : Prop where
  handle : ∃ (it : EpochIter) (pos : Nat) (t : Int), flow'.handles[nr]? = some it ∧
    it.curr_ = flow'.active[pos]? ∧ flow'.deadlines[pos]? = some t ∧ deadline ≤ t ∧
    ∀ p < pos, ∀ t, flow'.deadlines[p]? = some t → t < deadline
  first : flow.deadlines = [] → flow'.deadlines = [limitedTime (deadline + flow.epochStep_)]
  established : (∃ t ∈ flow.deadlines, deadline ≤ t) →
    flow'.active = flow.active ∧ flow'.deadlines = flow.deadlines
  extended : ∀ last ∈ flow.deadlines.getLast?, last < deadline →
    ∃ n : Nat, n * flow.epochStep_ < deadline - last ∧
      deadline - last ≤ (n + 1) * flow.epochStep_ ∧
      flow'.deadlines = flow.deadlines ++
        (List.range (n + 1)).map fun i : Nat => limitedTime (last + (i + 1) * flow.epochStep_)

theorem getElem?_deadlines (flow : BlockFlow) (p : Nat) :
    flow.deadlines[p]? = flow.active[p]?.map fun e => (flow.storage e).deadline := by
  rw [deadlines, getElem?_map]

theorem le_last_of_ascending (hord : flow.deadlines.Pairwise Ascending) {last t : Int}
    (hlast : flow.deadlines.getLast? = some last) (ht : t ∈ flow.deadlines) : t ≤ last := by
  rcases related_last hord hlast ht with rfl | h
  · exact le_refl _
  · exact h.le

theorem IsGrid.deadlines_eq (hext : Extends flow flow' new)
    (hgrid : IsGrid conf deadline flow flow' new) : ∃ last ∈ flow.deadlines.getLast?, last < deadline ∧ ∃ n : Nat,
    n * flow.epochStep_ < deadline - last ∧ deadline - last ≤ (n + 1) * flow.epochStep_ ∧ new.length = n + 1 ∧
    flow'.deadlines = flow.deadlines ++ (List.range (n + 1)).map fun i : Nat =>
    limitedTime (last + (i + 1) * flow.epochStep_) := by
  obtain ⟨last, hlast, hbeyond, -, n, hlow, hhigh, hlen, hset⟩ := hgrid
  have hdl : flow.deadlines.getLast? = some (flow.storage last).deadline := by
    rw [deadlines, getLast?_map, hlast]
    rfl
  refine ⟨_, hdl, hbeyond, n, hlow, hhigh, hlen, ?_⟩
  rw [hext.deadlines_eq]
  congr 1
  apply ext_getElem?
  intro i
  rw [getElem?_map, getElem?_map]
  by_cases hi : i < n + 1
  · have hget : new[i]? = some new[i] := getElem?_eq_getElem (by omega)
    rw [hget, getElem?_range hi, Option.map_some, hset i _ hget]
    rfl
  · rw [getElem?_eq_none (by omega), getElem?_eq_none (by simpa using hi)]
    rfl

/-- The promise is kept. -/
theorem Given.granted (hdl : deadline ≤ Lib.Time.MAX) (hstep : 0 < flow.epochStep_)
    (hord : flow.deadlines.Pairwise Ascending) {nr pos : Nat}
    (h : Given conf deadline flow flow' nr pos new) : Granted deadline flow flow' nr := by
  obtain ⟨it, hhandles, hat⟩ := h.handle
  have hnr : flow'.handles[nr]? = some it := by
    rw [hhandles, h.nr_eq, getElem?_concat_length]
  obtain ⟨e, hinside⟩ : ∃ e, flow'.active[pos]? = some e := ⟨_, getElem?_eq_getElem h.inside⟩
  rcases h.created with ⟨hnil, first, rfl, hset, rfl⟩ | ⟨rfl, hstorage, hcover, hbefore⟩ | ⟨hgrid, hpos⟩
  · have hold : flow.deadlines = [] := by rw [deadlines, hnil, map_nil]
    have hnew : flow'.deadlines = [limitedTime (deadline + flow.epochStep_)] := by
      rw [h.ext.deadlines_eq, hold, map_singleton, hset]
      rfl
    refine ⟨⟨it, 0, _, hnr, hat.curr, by rw [hnew]; rfl, ?_, by simp⟩, fun _ => hnew, ?_, ?_⟩
    · exact le_limitedTime_of_le hdl (by omega)
    · rintro ⟨t, ht, -⟩
      simp [hold] at ht
    · simp [hold]
  · have hactive : flow'.active = flow.active := by rw [h.ext.active_eq, append_nil]
    have hsame : flow'.deadlines = flow.deadlines := by rw [deadlines, hactive, hstorage, deadlines]
    refine ⟨⟨it, pos, _, hnr, hat.curr, by rw [getElem?_deadlines, hinside, Option.map_some], ?_, ?_⟩,
      ?_, fun _ => ⟨hactive, hsame⟩, ?_⟩
    · rw [hactive] at hinside
      rw [hstorage]
      exact hcover _ hinside
    · intro p hp t ht
      rw [getElem?_deadlines, hactive, hstorage] at ht
      obtain ⟨e, he, rfl⟩ := Option.map_eq_some_iff.mp ht
      exact hbefore p hp e he
    · intro hnil
      have hnone : flow.active = [] := map_eq_nil_iff.mp hnil
      have hlt := h.inside
      simp [hactive, hnone] at hlt
    · intro last hlast hbeyond
      rw [hactive] at hinside
      have hget := hcover _ hinside
      have hmem : (flow.storage e).deadline ∈ flow.deadlines :=
        mem_map_of_mem (mem_of_getElem? hinside)
      have hle := le_last_of_ascending hord hlast hmem
      omega
  · obtain ⟨last, hlast, hbeyond, n, hlow, hhigh, hlen, hnew⟩ := hgrid.deadlines_eq h.ext
    have hmem : last ∈ flow.deadlines := mem_of_getLast? hlast
    have hlo : Lib.Time.MIN ≤ last := by
      obtain ⟨e, -, rfl⟩ := mem_map.mp hmem
      exact (flow.storage e).deadline_range.1
    have hcount : pos = flow.deadlines.length + n := by
      rw [h.ext.active_eq, length_append] at hpos
      rw [deadlines, length_map]
      omega
    have hlastNew : flow'.deadlines[pos]?
        = some (limitedTime (last + ((n : Int) + 1) * flow.epochStep_)) := by
      rw [hnew, getElem?_append_right (by omega), getElem?_map,
        getElem?_range (by omega), hcount, Nat.add_sub_cancel_left]
      rfl
    refine ⟨⟨it, pos, _, hnr, hat.curr, hlastNew, ?_, ?_⟩, ?_, ?_, ?_⟩
    · exact le_limitedTime_of_le hdl (by omega)
    · intro p hp t ht
      rw [hnew] at ht
      rcases lt_or_ge p flow.deadlines.length with hold | hfresh
      · rw [getElem?_append_left hold] at ht
        have hle := le_last_of_ascending hord hlast (mem_of_getElem? ht)
        omega
      · rw [getElem?_append_right hfresh, getElem?_map,
          getElem?_range (by omega), Option.map_some, Option.some.injEq] at ht
        have hnonneg : 0 ≤ (((p - flow.deadlines.length : Nat) : Int) + 1) * flow.epochStep_ :=
          mul_nonneg (by omega) hstep.le
        have hle : (((p - flow.deadlines.length : Nat) : Int) + 1) * flow.epochStep_
            ≤ n * flow.epochStep_ := by
          apply mul_le_mul_of_nonneg_right _ hstep.le
          omega
        have hself := limitedTime_le_self
          (t := last + (((p - flow.deadlines.length : Nat) : Int) + 1) * flow.epochStep_) (by omega)
        omega
    · intro hnil
      simp [hnil] at hmem
    · rintro ⟨t, ht, hle⟩
      have hmax := le_last_of_ascending hord hlast ht
      omega
    · intro last' hlast' _
      obtain rfl : last = last' := by
        rw [hlast] at hlast'
        exact Option.some.inj hlast'
      exact ⟨n, hlow, hhigh, hnew⟩

/-- **Epoch order**: in every run with a positive epoch step, the active Epochs have ascending
deadlines, and `until` either raises an exception without any effect, or it keeps its promise. -/
theorem epoch_order (hconf : conf.Sound)
    (hreach : ((machine conf).restrict Regular).Reachable flow) (hstep : 0 < flow.epochStep_) :
    flow.deadlines.Pairwise Ascending ∧ ∀ deadline ≤ Lib.Time.MAX, ∀ memory,
      (∃ error, flow.until conf deadline memory = some (.error error, flow)) ∨
      ∃ nr flow', flow.until conf deadline memory = some (.ok nr, flow') ∧
        Granted deadline flow flow' nr := by
  obtain ⟨hsane, hord⟩ := ascending_of_reachable hconf hreach
  refine ⟨hord, fun deadline hdl memory => ?_⟩
  rcases until_cases conf hsane.valid deadline memory with
    ⟨-, hnonpos⟩ | herror | ⟨nr, flow', pos, new, hok, hgiven⟩
  · omega
  · exact .inl herror
  · exact .inr ⟨nr, flow', hok, hgiven.granted hdl hstep hord⟩

/-- Calls which extend the grid, fill an Epoch, and discard some. -/
def exampleCalls : List Call :=
  .until 300000 true :: .until 1750000 true :: List.replicate 100 (.create 1 true) ++
    [.discardBefore 600000]

theorem epoch_order_default : ∃ flow, flow.deadlines
      = [700000, 900000, 1100000, 1300000, 1500000, 1700000, 1900000, 2098381] ∧
    flow.deadlines.Pairwise Ascending ∧ ∀ deadline ≤ Lib.Time.MAX, ∀ memory,
      (∃ error, flow.until Config.default deadline memory = some (.error error, flow)) ∨
      ∃ nr flow', flow.until Config.default deadline memory = some (.ok nr, flow') ∧
        Granted deadline flow flow' nr := by
  obtain ⟨flow, hreach, hp⟩ := exists_reachable Config.default Regular
    (fun _ => ⟨0, 0, 0⟩) exampleCalls
    (fun flow => decide (flow.deadlines
      = [700000, 900000, 1100000, 1300000, 1500000, 1700000, 1900000, 2098381] ∧
        0 < flow.epochStep_)) (by decide +kernel)
  obtain ⟨hdl, hstep⟩ := of_decide_eq_true hp
  exact ⟨flow, hdl, epoch_order default_sound hreach hstep⟩

/-- Beyond the time range, a further Epoch does not have a later deadline. -/
theorem not_strict_beyond_range : ¬ ∀ flow, ((machine Config.default).restrict Regular).Reachable flow →
    0 < flow.epochStep_ → flow.deadlines.Pairwise (· < ·) := by
  intro hclaim
  obtain ⟨flow, hreach, hp⟩ := exists_reachable Config.default Regular
    (fun _ => ⟨0, 0, 0⟩) (.until Lib.Time.MAX true :: List.replicate 100 (.create 0 true))
    (fun flow => decide (0 < flow.epochStep_ ∧ ¬ flow.deadlines.Pairwise (· < ·)))
    (by decide +kernel)
  obtain ⟨hstep, hdl⟩ := of_decide_eq_true hp
  exact hdl (hclaim flow hreach hstep)

end BlockFlow

end Lumiera.Vault.Gear.Extents
