import Lumiera.Vault.Gear.BlockFlowOrder

/-! # Slots and handles

No slot of an active Epoch is handed out twice, whatever handles are in use: the gate of the Epoch has
passed the slots handed out, and never returns. And a handle obtained for some Epoch stays `Ahead` of
it, as long as this Epoch is active, which implies later deadlines.

Both hold in runs where no handle is used after it was left behind (`SettledCall`). Otherwise an Epoch
which is already in use is set up again, as is shown by a run at the end. -/

namespace Lumiera.Vault.Gear.Extents

open List

open Lumiera.Vault.Mem (ExtentFamily)

namespace BlockFlow

open EpochIter

variable {conf : Config} {flow flow' : BlockFlow}

/-! ## The statements -/

/-- The runs in which an Epoch remains active, all calls meeting a condition. -/
def whileActive (conf : Config) (C : BlockFlow → Call → Prop) (e : Nat) : Machine BlockFlow Call :=
  ((machine conf).restrict C).restrict fun flow _ => e ∈ flow.active

/-- **Slots are exclusive**: the gate is never handed out, nor is a slot which was handed out before,
while its Epoch is active. -/
def SlotsExclusive (conf : Config) (C : BlockFlow → Call → Prop) : Prop :=
  ∀ flow, ((machine conf).restrict C).Reachable flow →
    ∀ handle memory, C flow (.create handle memory) → ∀ e slot flow₁,
      flow.create conf handle memory = some (.ok (e, slot), flow₁) → 0 < slot ∧
        ∀ calls flow₂, (whileActive conf C e).Run flow₁ calls flow₂ → e ∈ flow₂.active →
          ∀ handle' memory', C flow₂ (.create handle' memory') → ∀ slot' flow₃,
            flow₂.create conf handle' memory' = some (.ok (e, slot'), flow₃) → slot' ≠ slot

/-- **Deadlines are kept**: a handle obtained for an Epoch allocates from Epochs with this deadline or
a later one, while its Epoch is active. -/
def DeadlinesKept (conf : Config) (C : BlockFlow → Call → Prop) : Prop :=
  ∀ flow, ((machine conf).restrict C).Reachable flow → ∀ deadline memory,
    C flow (.until deadline memory) → ∀ nr flow₁ it e,
      flow.until conf deadline memory = some (.ok nr, flow₁) → flow₁.handles[nr]? = some it →
        it.curr_ = some e → e ∈ flow₁.active ∧
          ∀ calls flow₂, (whileActive conf C e).Run flow₁ calls flow₂ → e ∈ flow₂.active →
            ∀ memory', C flow₂ (.create nr memory') → ∀ e' slot flow₃,
              flow₂.create conf nr memory' = some (.ok (e', slot), flow₃) → e' ∈ flow₃.active ∧
                (flow₁.storage e).deadline ≤ (flow₃.storage e').deadline

/-! ## Handles -/

theorem Extends.handles {new : List Nat} (h : Extends flow flow' new) (handles : List EpochIter) :
    Extends flow { flow' with handles := handles } new :=
  ⟨h.valid, h.active_eq, h.kept, h.slotCnt_le, h.dead_eq, h.next_le⟩

/-- **A handle after a call** is the same, unless this was an allocation through this handle: then it
is at the end, or at a later Epoch. -/
theorem handle_step (hconf : conf.Sound) (h : flow.Sane) {call : Call}
    (hsettled : flow.SettledCall call) {outcome : Outcome}
    (hstep : perform conf flow call = some (outcome, flow')) {nr : Nat} {it : EpochIter}
    (hit : flow.handles[nr]? = some it) : ∃ it', flow'.handles[nr]? = some it' ∧
      (it' = it ∨ flow.Settled nr ∧ (∃ new, Extends flow flow' new) ∧
        ∀ pos, At flow.alloc_ it pos → ∀ c, it'.curr_ = some c →
          ∃ q ≥ pos, flow'.active[q]? = some c) := by
  cases perform_cases hconf h hsettled hstep with
  | refused => exact ⟨it, hit, .inl rfl⟩
  | given hgiven =>
    obtain ⟨it', hhandles, -⟩ := hgiven.handle
    obtain ⟨hlt, -⟩ := List.getElem?_eq_some_iff.mp hit
    refine ⟨it, ?_, .inl rfl⟩
    rw [hhandles, getElem?_append_left hlt, hit]
  | @allocated handle _ result it₀ it' _ new hit₀ halloc hclaimed =>
    rw [halloc.handles_eq]
    by_cases hsame : handle = nr
    · subst hsame
      obtain rfl : it₀ = it := by
        rw [hit₀] at hit
        exact Option.some.inj hit
      obtain ⟨hlt, -⟩ := List.getElem?_eq_some_iff.mp hit
      refine ⟨it', getElem?_set_self hlt, .inr ⟨hsettled, ⟨new, halloc.ext.handles _⟩, ?_⟩⟩
      intro pos hat c hc
      -- an exception leaves the handle at the end
      have hclaim := hclaimed pos hat
      rcases result with error | ⟨e, slot⟩
      · obtain ⟨hnone, -⟩ := hclaim.raised error rfl
        rw [hnone] at hc
        cases hc
      · obtain ⟨hcurr, q, hq, hget⟩ := hclaim.later e slot rfl
        rw [hcurr] at hc
        exact ⟨q, hq, Option.some.inj hc ▸ hget⟩
    · exact ⟨it, by rw [getElem?_set_ne hsame, hit], .inl rfl⟩
  | cleared hreg _ =>
    obtain ⟨-, -, hhandles⟩ := regulate_alloc hreg
    exact ⟨it, by rw [← hit, ← hhandles], .inl rfl⟩
  | @announced additionalFps =>
    obtain ⟨-, -, hhandles⟩ := announceAdditionalFlow_alloc conf flow additionalFps
    exact ⟨it, by rw [hhandles, hit], .inl rfl⟩
  | pending => exact ⟨it, hit, .inl rfl⟩

/-- **The handle is ahead** of an active Epoch: if it denotes some Epoch, then this one or a later
one. -/
def Ahead (flow : BlockFlow) (nr e : Nat) : Prop :=
  ∃ (p : Nat) (it : EpochIter), flow.active[p]? = some e ∧ flow.handles[nr]? = some it ∧
    ∀ c, it.curr_ = some c → ∃ q ≥ p, flow.active[q]? = some c

theorem Ahead.position (h : flow.Sane) {nr e : Nat} (hahead : flow.Ahead nr e)
    (hsettled : flow.Settled nr) : ∃ (p : Nat) (it : EpochIter) (pos : Nat), flow.active[p]? = some e ∧
      flow.handles[nr]? = some it ∧ p ≤ pos ∧ At flow.alloc_ it pos := by
  obtain ⟨p, it, hget, hit, hcurr⟩ := hahead
  cases hc : it.curr_ with
  | none =>
    obtain ⟨hlt, -⟩ := List.getElem?_eq_some_iff.mp hget
    have hlen : flow.active.length = flow.alloc_.activeSlotCnt :=
      Lumiera.Vault.Mem.ExtentFamily.length_active h.valid
    exact ⟨p, it, _, hget, hit, by omega, at_of_end h.valid hc (hsettled it hit hc)⟩
  | some c =>
    obtain ⟨q, hq, hgetq⟩ := hcurr c hc
    have hknown := h.handles_known it (mem_of_getElem? hit)
    exact ⟨p, it, q, hget, hit, hq, at_of_active h.valid hknown hc hgetq⟩

/-- A call keeps the handle ahead, unless it discards the Epoch. -/
theorem Ahead.step (hconf : conf.Sound) (h : flow.Sane) {call : Call} (hsettled : flow.SettledCall call)
    {outcome : Outcome} (hstep : perform conf flow call = some (outcome, flow')) {nr e : Nat}
    (hahead : flow.Ahead nr e) (hactive : e ∈ flow'.active) : flow'.Ahead nr e := by
  obtain ⟨p, it, hget, hit, hcurr⟩ := hahead
  obtain ⟨it', hit', hmoved⟩ := handle_step hconf h hsettled hstep hit
  rcases hmoved with rfl | ⟨hused, ⟨new, hext⟩, hlater⟩
  · obtain ⟨-, heffect⟩ := perform_sane hconf h hsettled hstep
    cases heffect with
    | extended new hext =>
      have hkeep : ∀ {q c : Nat}, flow.active[q]? = some c → flow'.active[q]? = some c := by
        intro q c hq
        obtain ⟨hlt, -⟩ := List.getElem?_eq_some_iff.mp hq
        rw [hext.active_eq, getElem?_append_left hlt, hq]
      refine ⟨p, it', hkeep hget, hit', fun c hc => ?_⟩
      obtain ⟨q, hq, hgetq⟩ := hcurr c hc
      exact ⟨q, hq, hkeep hgetq⟩
    | discarded cnt hdrop hstorage =>
      -- positions are shifted by the number of Epochs discarded
      obtain ⟨p', hget'⟩ := mem_iff_getElem?.mp hactive
      have hshift : flow.active[cnt + p']? = some e := by
        rw [← getElem?_drop, ← hdrop, hget']
      have hpos : cnt + p' = p := active_inj h.valid hshift hget
      refine ⟨p', it', hget', hit', fun c hc => ?_⟩
      obtain ⟨q, hq, hgetq⟩ := hcurr c hc
      refine ⟨q - cnt, by omega, ?_⟩
      rw [hdrop, getElem?_drop, show cnt + (q - cnt) = q by omega, hgetq]
  · obtain ⟨p', it₀, pos, hget', hit₀, hle, hat⟩ :=
      Ahead.position h ⟨p, it, hget, hit, hcurr⟩ hused
    obtain rfl : it₀ = it := by
      rw [hit₀] at hit
      exact Option.some.inj hit
    have hlt : p' < flow.active.length := (List.getElem?_eq_some_iff.mp hget').1
    refine ⟨p', it', by rw [hext.active_eq, getElem?_append_left hlt, hget'], hit', ?_⟩
    intro c hc
    obtain ⟨q, hq, hgetq⟩ := hlater pos hat c hc
    exact ⟨q, by omega, hgetq⟩

/-! ## Runs -/

theorem monotone_of_reachable (hconf : conf.Sound) (hreach : ((machine conf).restrict SettledCall).Reachable flow) :
    flow.Sane ∧ flow.deadlines.Pairwise (· ≤ ·) := by
  have hlater : Later (· ≤ ·) := fun s t _ hlt => limitedTime_mono hlt.le
  refine Machine.Invariant.reachable (P := fun flow => flow.Sane ∧ flow.deadlines.Pairwise (· ≤ ·))
    ⟨?_, ?_⟩ hreach
  · rintro flow ⟨uninitialised, rfl⟩
    refine ⟨initial_sane conf uninitialised, ?_⟩
    exact .nil
  · rintro flow call flow' ⟨hsane, hord⟩ ⟨hsettled, outcome, hstep⟩
    exact ⟨(perform_sane hconf hsane hsettled hstep).1,
      perform_ordered hconf (fun _ _ _ => le_trans) hlater hsane hord hsettled
        (.inr fun _ => le_refl _) hstep⟩

theorem deadline_le_of_position (hord : flow.deadlines.Pairwise (· ≤ ·)) {p q e e' : Nat}
    (hp : flow.active[p]? = some e) (hq : flow.active[q]? = some e') (hle : p ≤ q) :
    (flow.storage e).deadline ≤ (flow.storage e').deadline := by
  rcases hle.lt_or_eq with hlt | rfl
  · rw [deadlines, pairwise_map, pairwise_iff_getElem] at hord
    obtain ⟨hpl, rfl⟩ := List.getElem?_eq_some_iff.mp hp
    obtain ⟨hql, rfl⟩ := List.getElem?_eq_some_iff.mp hq
    exact hord p q hpl hql hlt
  · obtain rfl : e = e' := by
      rw [hp] at hq
      exact Option.some.inj hq
    exact le_refl _

theorem next_lt_of_run (hconf : conf.Sound) {e slot : Nat} {calls : List Call} (h : flow.Sane)
    (hnext : (flow.storage e).next < slot) (hrun : (whileActive conf SettledCall e).Run flow calls flow') :
    flow'.Sane ∧ (flow'.storage e).next < slot := by
  refine hrun.keeps (P := fun flow => flow.Sane ∧ (flow.storage e).next < slot) ?_ ⟨h, hnext⟩
  rintro flow call flow' ⟨hsane, hlt⟩ ⟨hactive, hsettled, outcome, hstep⟩
  obtain ⟨hsane', heffect⟩ := perform_sane hconf hsane hsettled hstep
  obtain ⟨-, hle⟩ := heffect.keeps hactive
  exact ⟨hsane', lt_of_le_of_lt hle hlt⟩

theorem ahead_of_run (hconf : conf.Sound) {nr e : Nat} {t : Int} {calls : List Call} (h : flow.Sane)
    (hahead : flow.Ahead nr e) (hdl : (flow.storage e).deadline = t)
    (hrun : (whileActive conf SettledCall e).Run flow calls flow') (hactive : e ∈ flow'.active) :
    flow'.Ahead nr e ∧ (flow'.storage e).deadline = t := by
  have hkeeps := hrun.keeps (P := fun flow => flow.Sane ∧ (flow.storage e).deadline = t ∧
    (e ∈ flow.active → flow.Ahead nr e)) ?_ ⟨h, hdl, fun _ => hahead⟩
  · exact ⟨hkeeps.2.2 hactive, hkeeps.2.1⟩
  rintro flow call flow' ⟨hsane, hdl, hahead⟩ ⟨hactive, hsettled, outcome, hstep⟩
  obtain ⟨hsane', heffect⟩ := perform_sane hconf hsane hsettled hstep
  obtain ⟨hsame, -⟩ := heffect.keeps hactive
  exact ⟨hsane', hsame.trans hdl, (hahead hactive).step hconf hsane hsettled hstep⟩

theorem sane_of_create (hconf : conf.Sound) (h : flow.Sane) {handle : Nat} {memory : Bool}
    (hsettled : flow.Settled handle) {result : Except FlowError (Nat × Nat)}
    (hcreate : flow.create conf handle memory = some (result, flow')) : flow'.Sane := by
  have hstep : perform conf flow (.create handle memory) = some (.slot result, flow') := by
    rw [perform, hcreate]
    rfl
  have hsettledCall : flow.SettledCall (.create handle memory) := hsettled
  exact (perform_sane hconf h hsettledCall hstep).1

theorem slotsExclusive_settled (hconf : conf.Sound) : SlotsExclusive conf SettledCall := by
  intro flow hreach handle memory hsettled e slot flow₁ hcreate
  obtain ⟨hsane, -⟩ := monotone_of_reachable hconf hreach
  have hsane₁ := sane_of_create hconf hsane hsettled hcreate
  obtain ⟨-, it', mid, new, -, halloc, rfl, -⟩ :=
    create_spec hconf hsane.valid hsane.handles_known hsettled hcreate
  obtain ⟨hpos, hpassed, -⟩ := halloc.claimed e slot rfl
  refine ⟨hpos, ?_⟩
  intro calls flow₂ hrun hactive handle' memory' hsettled' slot' flow₃ hcreate'
  obtain ⟨hsane₂, hnext⟩ := next_lt_of_run hconf hsane₁ hpassed hrun
  obtain ⟨_, _, _, _, -, halloc', -, -⟩ :=
    create_spec hconf hsane₂.valid hsane₂.handles_known hsettled' hcreate'
  obtain ⟨-, -, hle⟩ := halloc'.claimed e slot' rfl
  have hle := hle hactive
  omega

theorem deadlinesKept_settled (hconf : conf.Sound) : DeadlinesKept conf SettledCall := by
  intro flow hreach deadline memory hsettled nr flow₁ it e huntil hit hcurr
  obtain ⟨hsane, hord⟩ := monotone_of_reachable hconf hreach
  have hstep : perform conf flow (.until deadline memory) = some (.handle (.ok nr), flow₁) := by
    rw [perform, huntil]
    rfl
  have hreach₁ : ((machine conf).restrict SettledCall).Reachable flow₁ :=
    hreach.step ⟨hsettled, _, hstep⟩
  obtain ⟨hsane₁, -⟩ := monotone_of_reachable hconf hreach₁
  rcases until_cases conf hsane.valid deadline memory with
    ⟨hnone, -⟩ | ⟨error, herror⟩ | ⟨nr', flow', pos, new, hok, hgiven⟩
  · rw [hnone] at huntil
    cases huntil
  · rw [herror] at huntil
    cases huntil
  rw [hok] at huntil
  simp only [Option.some.injEq, Prod.mk.injEq, Except.ok.injEq] at huntil
  obtain ⟨rfl, rfl⟩ := huntil
  obtain ⟨it', hhandles, hat⟩ := hgiven.handle
  obtain rfl : it' = it := by
    rw [hhandles, hgiven.nr_eq, getElem?_concat_length] at hit
    exact Option.some.inj hit
  have hget : flow'.active[pos]? = some e := by
    rw [← hcurr]
    exact hat.curr.symm
  refine ⟨mem_of_getElem? hget, ?_⟩
  have hahead : flow'.Ahead nr' e := by
    refine ⟨pos, it', hget, hit, fun c hc => ⟨pos, le_refl _, ?_⟩⟩
    rw [hget, ← hcurr, hc]
  intro calls flow₂ hrun hactive memory' hsettled' e' slot flow₃ hcreate
  obtain ⟨hahead₂, hdl⟩ := ahead_of_run hconf hsane₁ hahead rfl hrun hactive
  have hsteps : ∀ s call t, (whileActive conf SettledCall e).step s call t →
      ((machine conf).restrict SettledCall).step s call t := fun _ _ _ h => h.2
  have hreach₂ : ((machine conf).restrict SettledCall).Reachable flow₂ :=
    hreach₁.run (hrun.mono hsteps)
  obtain ⟨hsane₂, -⟩ := monotone_of_reachable hconf hreach₂
  have hstep' : perform conf flow₂ (.create nr' memory') = some (.slot (.ok (e', slot)), flow₃) := by
    rw [perform, hcreate]
    rfl
  obtain ⟨-, hord₃⟩ := monotone_of_reachable hconf (hreach₂.step ⟨hsettled', _, hstep'⟩)
  obtain ⟨p, it, q, hgetp, hit₂, hle, hat₂⟩ := hahead₂.position hsane₂ hsettled'
  obtain ⟨it₀, it₁, mid, new', hit₀, halloc, rfl, hclaimed⟩ :=
    create_spec hconf hsane₂.valid hsane₂.handles_known hsettled' hcreate
  obtain rfl : it₀ = it := by
    rw [hit₀] at hit₂
    exact Option.some.inj hit₂
  obtain ⟨-, q', hq', hget'⟩ := (hclaimed q hat₂).later e' slot rfl
  have hlt : p < flow₂.active.length := (List.getElem?_eq_some_iff.mp hgetp).1
  have hgetp' : mid.active[p]? = some e := by
    rw [halloc.ext.active_eq, getElem?_append_left hlt, hgetp]
  refine ⟨mem_of_getElem? hget', ?_⟩
  rw [← hdl, ← halloc.ext.deadline_eq hactive]
  exact deadline_le_of_position hord₃ hgetp' hget' (by omega)

/-- **Allocation is exclusive, and for the deadline requested**, in every run which uses no handle left
behind. -/
theorem exclusive_and_kept (hconf : conf.Sound) : SlotsExclusive conf SettledCall ∧ DeadlinesKept conf SettledCall :=
  ⟨slotsExclusive_settled hconf, deadlinesKept_settled hconf⟩


/-- The slot handed out when a call is performed, and the state thereafter. -/
def slotOf (conf : Config) (flow : BlockFlow) (handle : Nat) : Option ((Nat × Nat) × BlockFlow) :=
  match flow.create conf handle true with
  | some (.ok slot, flow') => some (slot, flow')
  | _ => none

theorem create_of_slotOf {handle : Nat} {slot : Nat × Nat} (h : slotOf conf flow handle = some (slot, flow')) :
    flow.create conf handle true = some (.ok slot, flow') := by
  unfold slotOf at h
  split at h
  · next hcreate =>
      obtain ⟨rfl, rfl⟩ := Prod.mk.inj (Option.some.inj h)
      exact hcreate
  · cases h

/-- Two handles which share one Epoch, and get its slots in turn. -/
theorem exclusive_and_kept_shared : (∃ flow flow₁ flow₂ e,
      ((machine Config.default).restrict SettledCall).Reachable flow ∧
      flow.create Config.default 0 true = some (.ok (e, 99), flow₁) ∧
      flow₁.create Config.default 1 true = some (.ok (e, 98), flow₂)) ∧
    SlotsExclusive Config.default SettledCall ∧ DeadlinesKept Config.default SettledCall := by
  refine ⟨?_, exclusive_and_kept default_sound⟩
  obtain ⟨flow, hreach, hp⟩ := exists_reachable Config.default SettledCall
    (fun _ => ⟨0, 0, 0⟩) [.until 300000 true, .until 200000 true]
    (fun flow => ((slotOf Config.default flow 0).bind fun (slot, flow₁) =>
      (slotOf Config.default flow₁ 1).map fun (slot', _) =>
        (slot, slot')) == some ((0, 99), (0, 98))) (by decide +kernel)
  obtain ⟨⟨slot, flow₁⟩, hfirst, hrest⟩ := Option.bind_eq_some_iff.mp (eq_of_beq hp)
  obtain ⟨⟨slot', flow₂⟩, hsecond, hslots⟩ := Option.map_eq_some_iff.mp hrest
  obtain ⟨rfl, rfl⟩ := Prod.mk.inj hslots
  exact ⟨flow, flow₁, flow₂, 0, hreach, create_of_slotOf hfirst, create_of_slotOf hsecond⟩

/-! ## A handle left behind -/

/-- The first handle fills all Epochs, finds no memory for a further one, and is thus left at the end.
Then another handle is obtained, for an Epoch created at this place. -/
def leftBehindCalls : List Call :=
  [.until 0 true, .until 1800000 true] ++ List.replicate 99 (.create 1 true) ++
    [.create 1 false, .until 1900000 true]

/-- **Using a handle left behind, the same slot is handed out twice.** -/
theorem left_behind_not_exclusive :
    ¬ (SlotsExclusive Config.default (fun _ _ => True) ∧
      DeadlinesKept Config.default fun _ _ => True) := by
  rintro ⟨hclaim, -⟩
  obtain ⟨flow, hreach, hp⟩ := exists_reachable Config.default (fun _ _ => True)
    (fun _ => ⟨0, 0, 0⟩) leftBehindCalls
    (fun flow => ((slotOf Config.default flow 2).bind fun (slot, flow₁) =>
      (slotOf Config.default flow₁ 1).map fun (slot', _) =>
        (slot, slot', decide (slot.1 ∈ flow₁.active))) == some ((9, 99), (9, 99), true))
    (by decide +kernel)
  obtain ⟨⟨slot, flow₁⟩, hfirst, hrest⟩ := Option.bind_eq_some_iff.mp (eq_of_beq hp)
  obtain ⟨⟨slot', flow₂⟩, hsecond, hslots⟩ := Option.map_eq_some_iff.mp hrest
  simp only [Prod.mk.injEq, decide_eq_true_eq] at hslots
  obtain ⟨rfl, rfl, hactive⟩ := hslots
  obtain ⟨-, hexclusive⟩ := hclaim flow hreach 2 true trivial 9 99 flow₁ (create_of_slotOf hfirst)
  exact hexclusive [] flow₁ (.nil flow₁) hactive 1 true trivial 99 flow₂ (create_of_slotOf hsecond) rfl

end BlockFlow

end Lumiera.Vault.Gear.Extents
