import Mathlib.Data.List.Pairwise
import Lumiera.Vault.Gear.Activity

/-! # Storage for Activities, managed by deadline (`vault/gear/block-flow.hpp`)

Activities are placed into Epochs, and each Epoch is discarded as a whole after its deadline. The
spacing of the Epochs is regulated by load, with floating point arithmetics, which is left open here:
the regulation is a parameter and may compute any spacing. -/

namespace Lumiera.Vault.Gear

open List

/-- Limit for the number of blocks allowed in Epoch expansion. -/
def BLOCK_EXPAND_SAFETY_LIMIT : Int := 3000

/-- **Parametrisation** of the allocation scheme. -/
structure BlockConfig where
  /-- Number of storage slots to fit into one Epoch. -/
  EPOCH_SIZ : Nat
  /-- The first slot is used for administration. -/
  usable : 1 < EPOCH_SIZ
  initialEpochStep : Int
  /-- `markEpochOverflow`: the next `epochStep_`. -/
  markEpochOverflow : Int → Int
  /-- `markEpochUnderflow`: the next `epochStep_`, by actual length and number of filled slots. -/
  markEpochUnderflow : Int → Int → Nat → Int
  /-- `announceAdditionalFlow`: the next `epochStep_`, by additional frame rate. -/
  announceAdditionalFlow : Int → Nat → Int

/-! ## Epochs -/

/-- **An allocation Extent** with the Gate placed into the first slot. -/
structure Epoch where
  gate : Condition
  filledSlots : Nat
  deriving DecidableEq, Repr

namespace Epoch

variable (epoch : Epoch)

/-- A new Epoch; there are no pending IO operations. -/
def setup (deadline : Int) : Epoch := ⟨⟨0, deadline⟩, 0⟩

/-- Activities herein are to be performed before this time. -/
def deadline : Int := epoch.gate.dead

/-- The Epoch must not be discarded yet. -/
def isAlive (deadline : Int) : Bool := epoch.gate.isHold || !epoch.gate.isDead deadline

/-- Slots are used up from the end, while the first one is reserved. -/
def hasFreeSlot (conf : BlockConfig) : Bool := epoch.filledSlots < conf.EPOCH_SIZ - 1

/-- Index of the slot to use next. -/
def nextSlot (conf : BlockConfig) : Nat := conf.EPOCH_SIZ - 1 - epoch.filledSlots

/-- Use one more slot. -/
def claimNextSlot : Epoch := { epoch with filledSlots := epoch.filledSlots + 1 }

@[simp] theorem deadline_setup (d : Int) : (setup d).deadline = d := rfl

@[simp] theorem deadline_claimNextSlot : epoch.claimNextSlot.deadline = epoch.deadline := rfl

variable {epoch}

theorem deadline_le_of_not_isAlive {now : Int} (h : epoch.isAlive now = false) : epoch.deadline ≤ now := by
  simp only [isAlive, Condition.isDead, Bool.or_eq_false_iff, Bool.not_eq_false',
    decide_eq_true_eq] at h
  exact h.2

end Epoch

/-- A slot within an Epoch. All Epochs ever set up are numbered consecutively, so that a place is
never confused with one in an Epoch which later uses the same storage. -/
structure Place where
  epoch : Nat
  slot : Nat
  deriving DecidableEq, Repr

/-- A record of an Epoch handed back to the allocator, and of the time it was discarded. -/
structure Recycled where
  epoch : Epoch
  discardedAt : Int
  deriving DecidableEq, Repr

/-! ## Operations -/

/-- **The allocation scheme**: active Epochs, oldest first, after those already recycled. -/
structure BlockFlow where
  alloc_ : List Epoch
  epochStep_ : Int
  pastDeadline_ : Int
  recycled : List Recycled
  deriving DecidableEq, Repr

namespace BlockFlow

/-- Nothing allocated yet. -/
def initial (conf : BlockConfig) : BlockFlow := ⟨[], conf.initialEpochStep, Lib.Time.ANYTIME, []⟩

variable (conf : BlockConfig) (flow : BlockFlow)

/-- The loop to set up new Epochs, up to the one which matches the deadline; `none` where the code
is `NOTREACHED`, or when there were more Epochs required. -/
def grid (epochStep deadline : Int) : Nat → Int → Option (List Epoch)
  | 0, _ => none
  | requiredNew + 1, lastDeadline =>
    let lastDeadline := lastDeadline + epochStep
    if deadline ≤ lastDeadline then
      if requiredNew = 0 then some [.setup lastDeadline] else none
    else (grid epochStep deadline requiredNew lastDeadline).map (.setup lastDeadline :: ·)

/-- How many Epochs are required to cover the distance; `none` when this number exceeds the limit
(also when it wraps around), or can not be computed. -/
def requiredNew (distance : Int) : Option Nat :=
  if flow.epochStep_ = 0 then none
  else
    let requiredNew := distance.tdiv flow.epochStep_
    if requiredNew < 0 ∨ requiredNew > BLOCK_EXPAND_SAFETY_LIMIT then none
    else if distance.tmod flow.epochStep_ > 0 then some (requiredNew.toNat + 1)
    else some requiredNew.toNat

/-- **`until`**: an Epoch for Activities to happen until the deadline, given by its position. There
is no result when an exception is thrown. -/
def «until» (deadline : Int) : Option (Nat × BlockFlow) :=
  match flow.alloc_.head?, flow.alloc_.getLast? with
  | some firstEpoch, some lastEpoch =>
    if firstEpoch.deadline ≥ deadline then some (0, flow)
    else if lastEpoch.deadline < deadline then do
      let requiredNew ← flow.requiredNew (deadline - lastEpoch.deadline)
      let newEpochs ← grid flow.epochStep_ deadline requiredNew lastEpoch.deadline
      some (flow.alloc_.length + newEpochs.length - 1,
        { flow with alloc_ := flow.alloc_ ++ newEpochs })
    else some (flow.alloc_.findIdx fun epoch => epoch.deadline ≥ deadline, flow)
  | _, _ => some (0, { flow with alloc_ := [.setup (deadline + flow.epochStep_)] })

/-- Claim a slot in the first of these Epochs which has a free one; beyond the last Epoch, a new one
is added. The result is the position, the slot, the Epochs and the spacing. -/
def claimIn (lastDeadline : Int) : List Epoch → Int → Nat × Nat × List Epoch × Int
  | [], epochStep =>
    let epoch := Epoch.setup (lastDeadline + |epochStep|)
    (0, epoch.nextSlot conf, [epoch.claimNextSlot], epochStep)
  | epoch :: following, epochStep =>
    if epoch.hasFreeSlot conf then
      (0, epoch.nextSlot conf, epoch.claimNextSlot :: following, epochStep)
    else
      let (pos, slot, following, epochStep) :=
        claimIn lastDeadline following (conf.markEpochOverflow epochStep)
      (pos + 1, slot, epoch :: following, epochStep)

/-- **`claimSlot`**: allocate an Activity through a handle, which is moved to the Epoch used. -/
def claimSlot (handle : Nat) : Place × Nat × BlockFlow :=
  let lastDeadline := flow.alloc_.getLast?.elim 0 (·.deadline)
  let (pos, slot, epochs, epochStep) :=
    claimIn conf lastDeadline (flow.alloc_.drop handle) flow.epochStep_
  (⟨flow.recycled.length + handle + pos, slot⟩, handle + pos,
    { flow with alloc_ := flow.alloc_.take handle ++ epochs, epochStep_ := epochStep })

/-- Allocate a number of Activities. -/
def create (handle : Nat) (flow : BlockFlow) : Nat → List Place × BlockFlow
  | 0 => ([], flow)
  | n + 1 =>
    let (place, handle, flow) := flow.claimSlot conf handle
    let (places, flow) := create handle flow n
    (place :: places, flow)

/-- The loop to discard Epochs: their number, and the regulation based on each of them. -/
def discardEpochs (deadline : Int) : List Epoch → Int → Int → Nat × Int × Int
  | [], epochStep, pastDeadline => (0, epochStep, pastDeadline)
  | epoch :: following, epochStep, pastDeadline =>
    if epoch.isAlive deadline then (0, epochStep, pastDeadline)
    else
      let previous :=
        if pastDeadline = Lib.Time.ANYTIME then epoch.deadline - epochStep else pastDeadline
      let epochDuration := epoch.deadline - previous
      let (toDiscard, epochStep, pastDeadline) := discardEpochs deadline following
        (conf.markEpochUnderflow epochStep epochDuration epoch.filledSlots) epoch.deadline
      (toDiscard + 1, epochStep, pastDeadline)

/-- **`discardBefore`**: clean-up all storage related to activities before the given deadline. -/
def discardBefore (deadline : Int) : BlockFlow :=
  if flow.alloc_.head?.all fun firstEpoch => firstEpoch.deadline > deadline then flow
  else
    let (toDiscard, epochStep, pastDeadline) :=
      discardEpochs conf deadline flow.alloc_ flow.epochStep_ flow.pastDeadline_
    { alloc_ := flow.alloc_.drop toDiscard
      epochStep_ := epochStep
      pastDeadline_ := pastDeadline
      recycled := flow.recycled ++ (flow.alloc_.take toDiscard).map (⟨·, deadline⟩) }

/-- Adapt the spacing in advance. -/
def announceAdditionalFlow (additionalFps : Nat) : BlockFlow :=
  { flow with epochStep_ := conf.announceAdditionalFlow flow.epochStep_ additionalFps }

/-! ## The sequence of deadlines -/

/-- The deadlines of all Epochs ever set up, by their number. -/
def deadlines : List Int :=
  flow.recycled.map (·.epoch.deadline) ++ flow.alloc_.map Epoch.deadline

/-- Active Epochs are ordered by deadline. -/
def Ordered : Prop := (flow.alloc_.map Epoch.deadline).Pairwise (· ≤ ·)

/-- **An allocation** may add Epochs, yet does not change the deadline of any Epoch. -/
structure Extends (flow flow' : BlockFlow) : Prop where
  recycled : flow'.recycled = flow.recycled
  deadlines : flow.deadlines <+: flow'.deadlines
  ordered : flow.Ordered → flow'.Ordered

variable {conf} {flow} {flow' flow'' : BlockFlow}

theorem Extends.refl (flow : BlockFlow) : flow.Extends flow := ⟨rfl, prefix_rfl, id⟩

theorem Extends.trans (h : flow.Extends flow') (h' : flow'.Extends flow'') :
    flow.Extends flow'' where
  recycled := h'.recycled.trans h.recycled
  deadlines := h.deadlines.trans h'.deadlines
  ordered ho := h'.ordered (h.ordered ho)

theorem Extends.getElem? (h : flow.Extends flow') {nr : Nat} {d : Int}
    (hd : flow.deadlines[nr]? = some d) : flow'.deadlines[nr]? = some d := by
  obtain ⟨rest, hrest⟩ := h.deadlines
  rw [← hrest, List.getElem?_append_left (List.getElem?_eq_some_iff.mp hd).1]
  exact hd

theorem Extends.of_append (new : List Int) (hrec : flow'.recycled = flow.recycled)
    (hnew : flow'.alloc_.map Epoch.deadline = flow.alloc_.map Epoch.deadline ++ new)
    (hordered : new.Pairwise (· ≤ ·))
    (hlater : ∀ old ∈ flow.alloc_, ∀ d ∈ new, old.deadline ≤ d) : flow.Extends flow' where
  recycled := hrec
  deadlines := by
    refine ⟨new, ?_⟩
    rw [BlockFlow.deadlines, BlockFlow.deadlines, hrec, hnew, append_assoc]
  ordered ho := by
    rw [Ordered, hnew]
    refine pairwise_append.mpr ⟨ho, hordered, fun d hd d' hd' => ?_⟩
    obtain ⟨old, hold, rfl⟩ := mem_map.mp hd
    exact hlater old hold d' hd'

variable {epoch : Epoch}

theorem Ordered.le_last (ho : flow.Ordered) {lastEpoch : Epoch} (hlast : flow.alloc_.getLast? = some lastEpoch)
    (hmem : epoch ∈ flow.alloc_) : epoch.deadline ≤ lastEpoch.deadline := by
  obtain ⟨front, hfront⟩ := getLast?_eq_some_iff.mp hlast
  rw [hfront] at hmem
  rw [Ordered, hfront, map_append, pairwise_append] at ho
  rcases mem_append.mp hmem with hmem | hmem
  · exact ho.2.2 _ (mem_map_of_mem hmem) _ (by simp)
  · rw [mem_singleton.mp hmem]

/-! ## Allocation -/

variable {deadline epochStep : Int}

theorem step_pos_of_grid (n : Nat) (last : Int) {new : List Epoch}
    (h : grid epochStep deadline n last = some new) (hlast : last < deadline) : 0 < epochStep := by
  induction n generalizing last new with
  | zero => cases h
  | succ n ih =>
    rw [grid] at h
    by_cases hreached : deadline ≤ last + epochStep
    · omega
    · rw [if_neg hreached] at h
      obtain ⟨rest, hrest, -⟩ := Option.map_eq_some_iff.mp h
      exact ih _ hrest (by omega)

/-- The grid proceeds in order, and the last of the new Epochs matches the deadline. -/
theorem grid_spec (n : Nat) (last : Int) {new : List Epoch} (h : grid epochStep deadline n last = some new)
    (hlast : last < deadline) : (new.map Epoch.deadline).Pairwise (· ≤ ·) ∧ (∀ epoch ∈ new, last ≤ epoch.deadline) ∧
    ∃ epoch, new.getLast? = some epoch ∧ deadline ≤ epoch.deadline := by
  have hpos := step_pos_of_grid n last h hlast
  induction n generalizing last new with
  | zero => cases h
  | succ n ih =>
    rw [grid] at h
    by_cases hreached : deadline ≤ last + epochStep
    · simp only [if_pos hreached, Option.ite_none_right_eq_some, Option.some.injEq] at h
      obtain ⟨-, rfl⟩ := h
      refine ⟨pairwise_singleton _ _, ?_, _, rfl, hreached⟩
      intro epoch hepoch
      rw [mem_singleton.mp hepoch, Epoch.deadline_setup]
      omega
    · rw [if_neg hreached] at h
      obtain ⟨rest, hrest, rfl⟩ := Option.map_eq_some_iff.mp h
      obtain ⟨hordered, hlater, epoch, hget, hmatch⟩ := ih _ hrest (by omega)
      refine ⟨?_, ?_, epoch, ?_, hmatch⟩
      · refine pairwise_cons.mpr ⟨fun d hd => ?_, hordered⟩
        obtain ⟨e, he, rfl⟩ := mem_map.mp hd
        exact hlater e he
      · intro e he
        rcases mem_cons.mp he with rfl | he
        · rw [Epoch.deadline_setup]
          omega
        · have := hlater e he
          omega
      · rw [getLast?_cons, hget]
        rfl

/-- **What `until` yields**: the position of an Epoch which matches the deadline, unless the spacing
is negative when there is no Epoch yet. -/
theorem until_spec {pos : Nat} (h : flow.until deadline = some (pos, flow')) (ho : flow.Ordered)
    (hstep : flow.alloc_ = [] → 0 ≤ flow.epochStep_) :
    flow.Extends flow' ∧ ∃ epoch, flow'.alloc_[pos]? = some epoch ∧ deadline ≤ epoch.deadline := by
  cases hfirst : flow.alloc_.head? with
  | none =>
    have hnil := head?_eq_none_iff.mp hfirst
    have hunfold : flow.until deadline =
        some (0, { flow with alloc_ := [.setup (deadline + flow.epochStep_)] }) := by
      rw [BlockFlow.until, hnil]
      rfl
    rw [hunfold] at h
    obtain ⟨rfl, rfl⟩ := Prod.mk.inj (Option.some.inj h)
    refine ⟨.of_append [deadline + flow.epochStep_] rfl ?_ (pairwise_singleton _ _) ?_, _, rfl,
      ?_⟩
    · rw [hnil]
      rfl
    · rw [hnil]
      nofun
    · have := hstep hnil
      rw [Epoch.deadline_setup]
      omega
  | some firstEpoch =>
    obtain ⟨lastEpoch, hlast⟩ : ∃ lastEpoch, flow.alloc_.getLast? = some lastEpoch := by
      cases hl : flow.alloc_.getLast? with
      | none => rw [getLast?_eq_none_iff.mp hl] at hfirst; cases hfirst
      | some lastEpoch => exact ⟨lastEpoch, rfl⟩
    have hunfold : flow.until deadline =
        if firstEpoch.deadline ≥ deadline then some (0, flow)
        else if lastEpoch.deadline < deadline then do
          let requiredNew ← flow.requiredNew (deadline - lastEpoch.deadline)
          let newEpochs ← grid flow.epochStep_ deadline requiredNew lastEpoch.deadline
          some (flow.alloc_.length + newEpochs.length - 1,
            { flow with alloc_ := flow.alloc_ ++ newEpochs })
        else some (flow.alloc_.findIdx fun epoch => epoch.deadline ≥ deadline, flow) := by
      rw [BlockFlow.until, hfirst, hlast]
    rw [hunfold] at h
    by_cases hpast : firstEpoch.deadline ≥ deadline
    · -- way into the past
      rw [if_pos hpast] at h
      obtain ⟨rfl, rfl⟩ := Prod.mk.inj (Option.some.inj h)
      refine ⟨.refl _, firstEpoch, ?_, hpast⟩
      rw [← head?_eq_getElem?]
      exact hfirst
    rw [if_neg hpast] at h
    by_cases hbeyond : lastEpoch.deadline < deadline
    · -- beyond the established Epochs
      simp only [if_pos hbeyond, Option.bind_eq_bind, Option.bind_eq_some_iff, Option.some.injEq]
        at h
      obtain ⟨requiredNew, -, newEpochs, hgrid, heq⟩ := h
      obtain ⟨rfl, rfl⟩ := Prod.mk.inj heq
      obtain ⟨hordered, hlater, epoch, hget, hmatch⟩ := grid_spec _ _ hgrid hbeyond
      refine ⟨.of_append _ rfl (map_append ..) hordered ?_, epoch, ?_, hmatch⟩
      · intro old hold d hd
        obtain ⟨e, he, rfl⟩ := mem_map.mp hd
        exact (ho.le_last hlast hold).trans (hlater e he)
      · obtain ⟨front, rfl⟩ := getLast?_eq_some_iff.mp hget
        rw [← append_assoc, length_append, length_singleton, ← Nat.add_assoc,
          Nat.add_sub_cancel, ← length_append, getElem?_concat_length]
    · -- within the established Epochs
      rw [if_neg hbeyond] at h
      obtain ⟨rfl, rfl⟩ := Prod.mk.inj (Option.some.inj h)
      have hfound : (flow.alloc_.findIdx fun epoch => epoch.deadline ≥ deadline) <
          flow.alloc_.length := by
        refine findIdx_lt_length.mpr ⟨lastEpoch, mem_of_getLast? hlast, ?_⟩
        exact decide_eq_true (by omega)
      refine ⟨.refl _, _, getElem?_eq_getElem hfound, ?_⟩
      exact of_decide_eq_true (findIdx_getElem (w := hfound))

theorem claimIn_spec (conf : BlockConfig) (last : Int) (epochs : List Epoch) (epochStep : Int) :
    ∃ new, (claimIn conf last epochs epochStep).2.2.1.map Epoch.deadline =
        epochs.map Epoch.deadline ++ new ∧ new.Pairwise (· ≤ ·) ∧ (∀ d ∈ new, last ≤ d) ∧
      (claimIn conf last epochs epochStep).1 <
        (claimIn conf last epochs epochStep).2.2.1.length := by
  induction epochs generalizing epochStep with
  | nil =>
    refine ⟨[last + |epochStep|], rfl, pairwise_singleton _ _, ?_, Nat.one_pos⟩
    intro d hd
    have := abs_nonneg epochStep
    rw [mem_singleton.mp hd]
    omega
  | cons epoch following ih =>
    rw [claimIn]
    by_cases hfree : epoch.hasFreeSlot conf = true
    · rw [if_pos hfree]
      exact ⟨[], by simp, .nil, nofun, Nat.succ_pos _⟩
    · rw [if_neg hfree]
      obtain ⟨new, hmap, hordered, hlater, hpos⟩ := ih (conf.markEpochOverflow epochStep)
      exact ⟨new, congrArg (epoch.deadline :: ·) hmap, hordered, hlater, Nat.succ_lt_succ hpos⟩

/-- `claimSlot` proceeds to an Epoch which still matches the deadline. -/
theorem claimSlot_spec (conf : BlockConfig) {handle : Nat} (ho : flow.Ordered)
    (hat : flow.alloc_[handle]? = some epoch) (hmatch : deadline ≤ epoch.deadline) :
    flow.Extends (flow.claimSlot conf handle).2.2 ∧
      (flow.claimSlot conf handle).1.epoch =
        flow.recycled.length + (flow.claimSlot conf handle).2.1 ∧
      ∃ epoch', (flow.claimSlot conf handle).2.2.alloc_[(flow.claimSlot conf handle).2.1]? =
        some epoch' ∧ deadline ≤ epoch'.deadline := by
  have hlt := (List.getElem?_eq_some_iff.mp hat).1
  obtain ⟨lastEpoch, hlast⟩ : ∃ lastEpoch, flow.alloc_.getLast? = some lastEpoch := by
    cases hl : flow.alloc_.getLast? with
    | none => rw [getLast?_eq_none_iff.mp hl] at hlt; cases hlt
    | some lastEpoch => exact ⟨lastEpoch, rfl⟩
  obtain ⟨new, hmap, hordered, hlater, hpos⟩ :=
    claimIn_spec conf lastEpoch.deadline (flow.alloc_.drop handle) flow.epochStep_
  generalize hr : claimIn conf lastEpoch.deadline (flow.alloc_.drop handle) flow.epochStep_ = r
    at hmap hpos
  have hclaim : flow.claimSlot conf handle =
      (⟨flow.recycled.length + handle + r.1, r.2.1⟩, handle + r.1,
        { flow with alloc_ := flow.alloc_.take handle ++ r.2.2.1, epochStep_ := r.2.2.2 }) := by
    rw [claimSlot, hlast, ← hr]
    rfl
  have halloc : (flow.alloc_.take handle ++ r.2.2.1).map Epoch.deadline =
      flow.alloc_.map Epoch.deadline ++ new := by
    rw [map_append, hmap, ← append_assoc, ← map_append, take_append_drop]
  have hextends : flow.Extends
      { flow with alloc_ := flow.alloc_.take handle ++ r.2.2.1, epochStep_ := r.2.2.2 } :=
    .of_append new rfl halloc hordered fun old hold d hd =>
      (ho.le_last hlast hold).trans (hlater d hd)
  rw [hclaim]
  refine ⟨hextends, Nat.add_assoc _ _ _, ?_⟩
  -- the position is among the Epochs from the handle on
  have hlen : (flow.alloc_.take handle).length = handle := by
    rw [length_take]
    omega
  obtain ⟨epoch₁, hget⟩ :
      ∃ epoch₁, (flow.alloc_.take handle ++ r.2.2.1)[handle + r.1]? = some epoch₁ := by
    rw [getElem?_append_right (by omega), hlen, Nat.add_sub_cancel_left]
    exact ⟨_, getElem?_eq_getElem hpos⟩
  refine ⟨epoch₁, hget, hmatch.trans ?_⟩
  have hsame : (flow.alloc_.take handle ++ r.2.2.1)[handle]?.map Epoch.deadline =
      some epoch.deadline := by
    rw [← getElem?_map, halloc, List.getElem?_append_left (by simpa using hlt),
      getElem?_map, hat]
    rfl
  obtain ⟨epoch₀, hepoch₀, heq⟩ := Option.map_eq_some_iff.mp hsame
  rw [← heq]
  by_cases hzero : r.1 = 0
  · rw [hzero, Nat.add_zero] at hget
    rw [hepoch₀] at hget
    rw [Option.some.inj hget]
  · have hordered' := pairwise_map.mp (hextends.ordered ho)
    obtain ⟨h₁, rfl⟩ := List.getElem?_eq_some_iff.mp hepoch₀
    obtain ⟨h₂, heq₂⟩ := List.getElem?_eq_some_iff.mp hget
    rw [← heq₂]
    exact pairwise_iff_getElem.mp hordered' _ _ h₁ h₂ (by omega)

/-- Each Activity allocated is placed into an active Epoch which matches the deadline. -/
theorem create_spec (conf : BlockConfig) (n : Nat) {handle : Nat} {flow : BlockFlow}
    (ho : flow.Ordered) (hat : flow.alloc_[handle]? = some epoch)
    (hmatch : deadline ≤ epoch.deadline) :
    flow.Extends (create conf handle flow n).2 ∧ ∀ place ∈ (create conf handle flow n).1,
      flow.recycled.length ≤ place.epoch ∧
        ∃ d, (create conf handle flow n).2.deadlines[place.epoch]? = some d ∧ deadline ≤ d := by
  induction n generalizing handle flow epoch with
  | zero => exact ⟨.refl _, nofun⟩
  | succ n ih =>
    obtain ⟨hextends, hplace, epoch', hat', hmatch'⟩ := claimSlot_spec conf ho hat hmatch
    obtain ⟨hrest, hplaces⟩ := ih (hextends.ordered ho) hat' hmatch'
    refine ⟨hextends.trans hrest, fun place hmem => ?_⟩
    rcases mem_cons.mp hmem with heq | hmem
    · have hclaimed : place = (flow.claimSlot conf handle).1 := heq
      rw [hclaimed, hplace]
      refine ⟨Nat.le_add_right _ _, epoch'.deadline, hrest.getElem? ?_, hmatch'⟩
      rw [deadlines, hextends.recycled, getElem?_append_right (by simp),
        length_map, Nat.add_sub_cancel_left, getElem?_map, hat']
      rfl
    · exact hplaces place hmem

/-! ## Clean-up -/

theorem discardEpochs_eq (conf : BlockConfig) (deadline : Int) (epochs : List Epoch)
    (epochStep pastDeadline : Int) :
    (discardEpochs conf deadline epochs epochStep pastDeadline).1 =
      (epochs.takeWhile fun epoch => !epoch.isAlive deadline).length := by
  induction epochs generalizing epochStep pastDeadline with
  | nil => rfl
  | cons epoch following ih =>
    rw [discardEpochs]
    by_cases halive : epoch.isAlive deadline = true
    · rw [if_pos halive, takeWhile_cons_of_neg (by simpa using halive)]
      rfl
    · rw [if_neg halive, takeWhile_cons_of_pos (by simpa using halive)]
      exact congrArg Nat.succ (ih _ _)

/-- What `discardBefore` does: the Epochs up to the first one alive are recycled. -/
theorem discardBefore_spec (conf : BlockConfig) (flow : BlockFlow) (deadline : Int) :
    (flow.discardBefore conf deadline).alloc_ =
        flow.alloc_.dropWhile (fun epoch => !epoch.isAlive deadline) ∧
      (flow.discardBefore conf deadline).recycled = flow.recycled ++
        (flow.alloc_.takeWhile fun epoch => !epoch.isAlive deadline).map (⟨·, deadline⟩) := by
  rw [discardBefore]
  by_cases hfirst : (flow.alloc_.head?.all fun firstEpoch => firstEpoch.deadline > deadline) = true
  · rw [if_pos hfirst]
    cases halloc : flow.alloc_ with
    | nil => simp
    | cons firstEpoch following =>
      have halive : firstEpoch.isAlive deadline = true := by
        rw [halloc, head?_cons, Option.all_some, decide_eq_true_eq] at hfirst
        simp only [Epoch.isAlive, Condition.isDead, Bool.or_eq_true, Bool.not_eq_true',
          decide_eq_false_iff_not, not_le]
        exact .inr hfirst
      rw [dropWhile_cons_of_neg (by simpa using halive),
        takeWhile_cons_of_neg (by simpa using halive)]
      simp
  · rw [if_neg hfirst]
    have hcount := discardEpochs_eq conf deadline flow.alloc_ flow.epochStep_
      flow.pastDeadline_
    have hcut : ∀ front rest, front ++ rest = flow.alloc_ →
        flow.alloc_.drop front.length = rest ∧ flow.alloc_.take front.length = front := by
      intro front rest hsplit
      rw [← hsplit]
      exact ⟨drop_left, take_left⟩
    obtain ⟨hdrop, htake⟩ := hcut _ _ takeWhile_append_dropWhile
    rw [← hcount] at hdrop htake
    exact ⟨hdrop, congrArg (fun epochs => flow.recycled ++ epochs.map (⟨·, deadline⟩)) htake⟩

theorem deadlines_discardBefore (deadline : Int) : (flow.discardBefore conf deadline).deadlines = flow.deadlines := by
  obtain ⟨halloc, hrecycled⟩ := discardBefore_spec conf flow deadline
  have hsplit := takeWhile_append_dropWhile
    (p := fun epoch : Epoch => !epoch.isAlive deadline) (l := flow.alloc_)
  rw [deadlines, halloc, hrecycled, map_append, append_assoc, map_map]
  refine congrArg _ ?_
  conv_rhs => rw [← hsplit, map_append]
  rfl

theorem Ordered.discardBefore (ho : flow.Ordered) (deadline : Int) : (flow.discardBefore conf deadline).Ordered := by
  rw [Ordered, (discardBefore_spec conf flow deadline).1]
  exact ho.sublist ((dropWhile_sublist _).map _)

end BlockFlow

end Lumiera.Vault.Gear
