import Lumiera.Vault.Gear.BlockFlowExtents
import Lumiera.Vault.Mem.ExtentFamilyQueue

/-! # What the operations do to the active Epochs

The extents are a queue, and so are the Epochs. Here each operation of the allocation scheme, with
its iteration over a cyclic pool, is related to the list of the active Epochs: `Epoch iterators` are
positions in this list, and an allocation `Extends` the list at the end, while it otherwise only uses
up slots. -/

namespace Lumiera.Vault.Gear.Extents

open List

open Lumiera.Vault.Mem (ExtentFamily)
open Lumiera.Vault.Mem.ExtentFamily

/-! ## Time values -/

variable {t : Int}

theorem limitedTime_of_range (hlo : Lib.Time.MIN ≤ t) (hhi : t ≤ Lib.Time.MAX) : limitedTime t = t := by
  simp only [limitedTime, Lib.Time.symmetricLimit, Lib.Time.MIN] at *
  split_ifs <;> omega

theorem limitedTime_le (t : Int) : limitedTime t ≤ Lib.Time.MAX := by
  simp only [limitedTime, Lib.Time.symmetricLimit, Lib.Time.MAX]
  split_ifs <;> omega

theorem le_limitedTime (t : Int) : Lib.Time.MIN ≤ limitedTime t := by
  simp only [limitedTime, Lib.Time.symmetricLimit, Lib.Time.MAX, Lib.Time.MIN]
  split_ifs <;> omega

theorem limitedTime_mono {s : Int} (hle : s ≤ t) : limitedTime s ≤ limitedTime t := by
  simp only [limitedTime, Lib.Time.symmetricLimit, Lib.Time.MAX]
  split_ifs <;> omega

theorem le_limitedTime_of_le {s : Int} (hhi : s ≤ Lib.Time.MAX) (hle : s ≤ t) : s ≤ limitedTime t := by
  simp only [limitedTime, Lib.Time.symmetricLimit] at *
  split_ifs <;> omega

theorem limitedTime_le_self (hlo : Lib.Time.MIN ≤ t) : limitedTime t ≤ t := by
  simp only [limitedTime, Lib.Time.symmetricLimit, Lib.Time.MIN] at *
  split_ifs <;> omega

theorem limitedTime_pos (ht : 0 < t) : 0 < limitedTime t := by
  simp only [limitedTime, Lib.Time.symmetricLimit, Lib.Time.MAX]
  split_ifs <;> omega

theorem EpochGate.deadline_range (gate : EpochGate) : Lib.Time.MIN ≤ gate.deadline ∧ gate.deadline ≤ Lib.Time.MAX :=
  ⟨le_limitedTime _, limitedTime_le _⟩

/-! ## Epoch iterators -/

namespace EpochIter

variable {alloc : ExtentFamily} {it it' : EpochIter} {pos : Nat}

/-- **The iterator is at a position** in the queue of active extents, the end included. Its index may
be out of sync while it denotes an extent. -/
structure At (alloc : ExtentFamily) (it : EpochIter) (pos : Nat) : Prop where
  curr : it.curr_ = alloc.active[pos]?
  pos_le : pos ≤ alloc.activeSlotCnt
  index_lt : it.index < alloc.slotCnt
  at_end : pos = alloc.activeSlotCnt → it.index = alloc.posIdx pos

theorem At.none_iff (h : alloc.Valid) (hat : At alloc it pos) : it.curr_ = none ↔ pos = alloc.activeSlotCnt := by
  have hlen := length_active h
  have hle := hat.pos_le
  rw [hat.curr, getElem?_eq_none_iff]
  omega

theorem accessEpoch_posIdx (h : alloc.Valid) (pos : Nat) (hpos : pos ≤ alloc.activeSlotCnt) :
    ∃ it, accessEpoch alloc (alloc.posIdx pos) = some it ∧ At alloc it pos ∧
      it.index = alloc.posIdx pos := by
  have hlt := activeSlotCnt_lt h
  have hlen := length_active h
  refine ⟨⟨alloc.posIdx pos, alloc.active[pos]?⟩, ?_, ⟨rfl, hpos, posIdx_lt h pos, fun _ => rfl⟩, rfl⟩
  by_cases hend : pos = alloc.activeSlotCnt
  · have hcheck : ¬ alloc.checkPoint (alloc.posIdx pos) := by
      simp [checkPoint, hend, posIdx_activeSlotCnt h]
    have hnone : alloc.active[pos]? = none := getElem?_eq_none_iff.mpr (by omega)
    rw [accessEpoch, if_neg hcheck, hnone]
  · have hcheck : alloc.checkPoint (alloc.posIdx pos) := by
      simp only [checkPoint, decide_eq_true_eq]
      rw [← posIdx_activeSlotCnt h]
      intro heq
      exact hend (posIdx_inj h (by omega) hlt heq)
    have hinside : pos < alloc.active.length := by omega
    rw [accessEpoch, if_pos hcheck, access, isValidPos_posIdx h (by omega),
      if_pos (by simp; omega), extents_posIdx_active h (by omega),
      getElem?_eq_getElem hinside]
    rfl

theorem at_of_accessEpoch (h : alloc.Valid) {index : Nat} (hindex : index < alloc.slotCnt)
    (haccess : accessEpoch alloc index = some it) : ∃ pos, At alloc it pos ∧ it.index = alloc.posIdx pos := by
  have hlt := activeSlotCnt_lt h
  obtain ⟨pos, hpos, rfl⟩ := exists_posIdx h hindex
  have hinside : pos ≤ alloc.activeSlotCnt := by
    by_contra hbeyond
    have hcheck : alloc.checkPoint (alloc.posIdx pos) := by
      simp only [checkPoint, decide_eq_true_eq]
      rw [← posIdx_activeSlotCnt h]
      intro heq
      have := posIdx_inj h hpos hlt heq
      omega
    rw [accessEpoch, if_pos hcheck, access, isValidPos_posIdx h hpos,
      if_neg (by simp; omega)] at haccess
    cases haccess
  obtain ⟨it', hit', hat, hindex'⟩ := accessEpoch_posIdx h pos hinside
  rw [haccess] at hit'
  cases hit'
  exact ⟨pos, hat, hindex'⟩

/-- Iterating leads to the next position, wherever the index was. -/
theorem iterNext_at (h : alloc.Valid) (hat : At alloc it pos) (hpos : pos < alloc.activeSlotCnt) : ∃ it',
    iterNext alloc it = some it' ∧ At alloc it' (pos + 1) ∧ it'.index = alloc.posIdx (pos + 1) := by
  have hlen := length_active h
  have hinside : pos < alloc.active.length := by omega
  have hcurr : it.curr_ = some alloc.active[pos] := by
    rw [hat.curr, getElem?_eq_getElem hinside]
  have hhome : alloc.extents_[alloc.posIdx pos]? = some alloc.active[pos] := by
    rw [extents_posIdx_active h hpos, getElem?_eq_getElem hinside]
  obtain ⟨index, hvalidate, htarget⟩ := validatePos_spec h hat.index_lt
    (mem_extents_of_active (getElem_mem hinside))
  have hsync : index = alloc.posIdx pos := by
    have hmatch : alloc.matchPos index alloc.active[pos] := decide_eq_true htarget
    exact (matchPos_iff h hhome).mp hmatch
  obtain ⟨it', haccess, hat', hindex⟩ := accessEpoch_posIdx h (pos + 1) (by omega)
  refine ⟨it', ?_, hat', hindex⟩
  rw [iterNext, hcurr]
  simp only [hvalidate, hsync, iterNext_posIdx, haccess]

theorem at_of_iterNext (h : alloc.Valid) (hindex : it.index < alloc.slotCnt)
    (hknown : ∀ epoch, it.curr_ = some epoch → epoch ∈ alloc.extents_)
    (hnext : iterNext alloc it = some it') :
    ∃ pos, At alloc it' pos ∧ it'.index = alloc.posIdx pos := by
  rw [iterNext] at hnext
  cases hcurr : it.curr_ with
  | none => simp [hcurr] at hnext
  | some epoch =>
    obtain ⟨index, hvalidate, htarget⟩ := validatePos_spec h hindex (hknown epoch hcurr)
    simp only [hcurr, hvalidate] at hnext
    have hwrap : alloc.iterNext index < alloc.slotCnt :=
      Nat.mod_lt _ (by have := h.start_lt; omega)
    exact at_of_accessEpoch h hwrap hnext

end EpochIter

namespace BlockFlow

open EpochIter

/-- The active Epochs, oldest first. -/
def active (flow : BlockFlow) : List Nat := flow.alloc_.active

/-- The deadlines of the active Epochs. -/
def deadlines (flow : BlockFlow) : List Int := flow.active.map fun e => (flow.storage e).deadline

variable {conf : Config} {flow flow' : BlockFlow}

@[simp] theorem storage_withGate (flow : BlockFlow) (epoch : Nat) (gate : EpochGate) (e : Nat) :
    (flow.withGate epoch gate).storage e = if e = epoch then gate else flow.storage e := rfl

@[simp] theorem alloc_withGate (flow : BlockFlow) (epoch : Nat) (gate : EpochGate) :
    (flow.withGate epoch gate).alloc_ = flow.alloc_ := rfl

@[simp] theorem alloc_withStep (flow : BlockFlow) (step : Int) : (flow.withStep step).alloc_ = flow.alloc_ := rfl

@[simp] theorem storage_withStep (flow : BlockFlow) (step : Int) : (flow.withStep step).storage = flow.storage := rfl

@[simp] theorem handles_withStep (flow : BlockFlow) (step : Int) : (flow.withStep step).handles = flow.handles := rfl

@[simp] theorem pastDeadline_withStep (flow : BlockFlow) (step : Int) :
    (flow.withStep step).pastDeadline_ = flow.pastDeadline_ := rfl

theorem empty_iff (h : flow.alloc_.Valid) : flow.alloc_.empty ↔ flow.active = [] := by
  have hstart := h.start_lt
  have hlen := length_active h
  rw [activeSlotCnt_eq] at hlen
  rw [ExtentFamily.empty, decide_eq_true_eq, active, ← length_eq_zero_iff, hlen]
  split_ifs <;> omega

variable {pos : Nat}

theorem access_posIdx (flow : BlockFlow) (h : flow.alloc_.Valid) {epoch : Nat}
    (hget : flow.active[pos]? = some epoch) :
    flow.alloc_.access (flow.alloc_.posIdx pos) = some epoch := by
  obtain ⟨hpos, -⟩ := List.getElem?_eq_some_iff.mp hget
  have hlen := length_active h
  have hlt := activeSlotCnt_lt h
  have hpos : pos < flow.alloc_.activeSlotCnt := by
    rw [active] at hpos
    omega
  rw [access, isValidPos_posIdx h (by omega), if_pos (by simpa using hpos),
    extents_posIdx_active h hpos]
  exact hget

theorem firstEpoch_eq (h : flow.alloc_.Valid) {epoch : Nat} (hget : flow.active[0]? = some epoch) :
    flow.firstEpoch = some (flow.storage epoch) := by
  have hne : ¬ flow.alloc_.empty := by
    rw [empty_iff h]
    intro hnil
    simp [hnil] at hget
  have haccess := access_posIdx flow h hget
  rw [posIdx_zero h] at haccess
  rw [firstEpoch, if_neg hne, haccess, Option.map_some]

theorem lastEpoch_eq (h : flow.alloc_.Valid) {epoch : Nat} (hlast : flow.active.getLast? = some epoch) :
    flow.lastEpoch = some (flow.storage epoch) := by
  have hlen : flow.active.length = flow.alloc_.activeSlotCnt := length_active h
  have hne : flow.active ≠ [] := by
    intro hnil
    simp [hnil] at hlast
  have hpos : 0 < flow.alloc_.activeSlotCnt := by
    rw [← hlen]
    exact length_pos_iff.mpr hne
  have hget : flow.active[flow.alloc_.activeSlotCnt - 1]? = some epoch := by
    rw [← hlen, ← getLast?_eq_getElem?, hlast]
  rw [lastEpoch, if_neg (by rwa [empty_iff h]), last_eq h hpos, Option.bind_some,
    access_posIdx flow h hget, Option.map_some]

theorem lastEpoch_of_nil (h : flow.alloc_.Valid) (hnil : flow.active = []) : flow.lastEpoch = none := by
  rw [lastEpoch, if_pos ((empty_iff h).mpr hnil)]

/-! ## Allocations extend the list of Epochs -/

/-- **What an allocation does**: there may be new Epochs at the end; of those which were active, it
only uses up slots. -/
structure Extends (flow flow' : BlockFlow) (new : List Nat) : Prop where
  valid : flow'.alloc_.Valid
  active_eq : flow'.active = flow.active ++ new
  kept : ∀ e ∈ flow.alloc_.extents_, e ∈ flow'.alloc_.extents_
  slotCnt_le : flow.alloc_.slotCnt ≤ flow'.alloc_.slotCnt
  dead_eq : ∀ e ∈ flow.active, (flow'.storage e).dead = (flow.storage e).dead
  next_le : ∀ e ∈ flow.active, (flow'.storage e).next ≤ (flow.storage e).next

theorem Extends.refl (h : flow.alloc_.Valid) : Extends flow flow [] :=
  ⟨h, (append_nil _).symm, fun _ h => h, le_refl _, fun _ _ => rfl, fun _ _ => le_refl _⟩

variable {new : List Nat} {e : Nat}

theorem Extends.deadline_eq (h : Extends flow flow' new) (he : e ∈ flow.active) :
    (flow'.storage e).deadline = (flow.storage e).deadline := by
  rw [EpochGate.deadline, h.dead_eq e he, EpochGate.deadline]

theorem Extends.deadlines_eq (h : Extends flow flow' new) :
    flow'.deadlines = flow.deadlines ++ new.map fun e => (flow'.storage e).deadline := by
  rw [deadlines, h.active_eq, map_append]
  congr 1
  apply map_congr_left
  intro e he
  exact h.deadline_eq he

theorem markEpochOverflow_alloc (conf : Config) (flow : BlockFlow) :
    (flow.markEpochOverflow conf).alloc_ = flow.alloc_ ∧
      (flow.markEpochOverflow conf).storage = flow.storage ∧
      (flow.markEpochOverflow conf).handles = flow.handles ∧
      (flow.markEpochOverflow conf).pastDeadline_ = flow.pastDeadline_ := by
  rw [markEpochOverflow]
  split_ifs
  · simp [adjustEpochStep]
  · exact ⟨rfl, rfl, rfl, rfl⟩

theorem markEpochOverflow_pos (hconf : conf.Sound) (hstep : 0 < flow.epochStep_) :
    0 < (flow.markEpochOverflow conf).epochStep_ := by
  rw [markEpochOverflow]
  split_ifs with hcut
  · have hcutOff := hconf.cutOff_pos
    have htwo : 2 ≤ flow.epochStep_ := by omega
    apply limitedTime_pos
    have hhalf : (1 : ℚ) ≤ (flow.epochStep_ : ℚ) * conf.boostFactorOverflow := by
      have hstep2 : (2 : ℚ) ≤ flow.epochStep_ := by exact_mod_cast htwo
      have hfactor := hconf.overflow_ge
      nlinarith
    have hfloor : (1 : Int) ≤ Rat.floor ((flow.epochStep_ : ℚ) * conf.boostFactorOverflow) := by
      rw [Rat.le_floor_iff]
      exact_mod_cast hhalf
    omega
  · exact hstep

theorem getEpochStep_nonneg (flow : BlockFlow) : 0 ≤ flow.getEpochStep := abs_nonneg _

theorem getEpochStep_pos (hstep : 0 < flow.epochStep_) : 0 < flow.getEpochStep := by
  have hpos : 0 < Lib.Time.symmetricLimit flow.epochStep_ Lib.Time.durationMax := by
    simp only [Lib.Time.symmetricLimit, Lib.Time.durationMax, Lib.Time.MAX, Lib.Time.MIN]
    split_ifs <;> omega
  rw [getEpochStep, abs_of_pos hpos]
  exact hpos

/-! ## Claiming a slot -/

theorem claimNextSlot_eq {gate : EpochGate} (hfree : 0 < gate.next) :
    gate.claimNextSlot = some (gate.next, { gate with next := gate.next - 1 }) := by
  simp [EpochGate.claimNextSlot, EpochGate.hasFreeSlot, hfree]

theorem claimNextSlot_none {gate : EpochGate} (hfull : gate.next = 0) : gate.claimNextSlot = none := by
  simp [EpochGate.claimNextSlot, EpochGate.hasFreeSlot, hfull]

/-- **The outcome of an allocation**: possibly there is one new Epoch, one epoch step after the last
one, and the slot handed out was not used before. -/
structure Allocated (flow : BlockFlow) (result : Except FlowError (Nat × Nat)) (it : EpochIter)
    (flow' : BlockFlow) (new : List Nat) : Prop where
  ext : Extends flow flow' new
  handles_eq : flow'.handles = flow.handles
  step_pos : 0 < flow.epochStep_ → 0 < flow'.epochStep_
  new_le : new.length ≤ 1
  new_fresh : ∀ e ∈ new, ∃ last ∈ flow.active.getLast?, ∃ δ, 0 ≤ δ ∧
    (0 < flow.epochStep_ → 0 < δ) ∧ (flow'.storage e).dead = (flow.storage last).deadline + δ
  index_lt : it.index < flow'.alloc_.slotCnt
  known : ∀ e, it.curr_ = some e → e ∈ flow'.alloc_.extents_
  claimed : ∀ e slot, result = .ok (e, slot) → 0 < slot ∧ (flow'.storage e).next < slot ∧
    (e ∈ flow.active → slot ≤ (flow.storage e).next)

/-- **Claiming a slot from a position on**: the slot is in an Epoch at this position or a later one,
and a new Epoch is added when all of these are full. An exception leaves the iterator at the end. -/
structure Claimed (pos : Nat) (flow : BlockFlow) (result : Except FlowError (Nat × Nat))
    (it : EpochIter) (flow' : BlockFlow) (new : List Nat) : Prop
    extends Allocated flow result it flow' new where
  overflow : new ≠ [] → ∀ q ≥ pos, ∀ e, flow.active[q]? = some e → (flow.storage e).next = 0
  later : ∀ e slot, result = .ok (e, slot) → it.curr_ = some e ∧
    ∃ q ≥ pos, flow'.active[q]? = some e
  raised : ∀ error, result = .error error → it.curr_ = none ∧ it.index = flow'.alloc_.after_

variable {it : EpochIter}

/-- A slot in the Epoch at this position. -/
theorem claimed_here (h : flow.alloc_.Valid) {curr : Nat}
    (hat : At flow.alloc_ it pos) (hcurr : flow.active[pos]? = some curr)
    (hfree : 0 < (flow.storage curr).next) :
    Claimed pos flow (.ok (curr, (flow.storage curr).next)) it
      (flow.withGate curr { flow.storage curr with next := (flow.storage curr).next - 1 }) [] := by
  have hext : Extends flow
      (flow.withGate curr { flow.storage curr with next := (flow.storage curr).next - 1 }) [] := by
    refine ⟨h, (append_nil _).symm, fun _ h => h, le_refl _, ?_, ?_⟩
    · intro e _
      rw [storage_withGate]
      split_ifs with heq
      · rw [heq]
      · rfl
    · intro e _
      rw [storage_withGate]
      split_ifs with heq
      · rw [heq]
        exact Nat.sub_le _ _
      · exact le_refl _
  have hit : it.curr_ = some curr := hat.curr.trans hcurr
  refine ⟨⟨hext, rfl, id, by simp, by simp, hat.index_lt, ?_, ?_⟩, by simp, ?_, by simp⟩
  · intro e he
    obtain rfl := Option.some.inj (hit.symm.trans he)
    exact mem_extents_of_active (mem_of_getElem? hcurr)
  · rintro e slot heq
    obtain ⟨rfl, rfl⟩ : curr = e ∧ (flow.storage curr).next = slot := by simpa using heq
    refine ⟨hfree, ?_, fun _ => le_refl _⟩
    rw [storage_withGate, if_pos rfl]
    exact Nat.sub_lt hfree Nat.one_pos
  · rintro e slot heq
    obtain ⟨rfl, rfl⟩ : curr = e ∧ (flow.storage curr).next = slot := by simpa using heq
    exact ⟨hit, pos, le_refl _, hcurr⟩

/-- Beyond the last Epoch, a new one is added, and its first slot is claimed. -/
theorem claimSlot_end (hconf : conf.Sound) (h : flow.alloc_.Valid)
    (hat : At flow.alloc_ it flow.alloc_.activeSlotCnt) (hne : flow.active ≠ []) (memory : Bool) (fuel : Nat) :
    ∃ result it' flow' new, claimSlot conf memory (fuel + 2) flow it = some (result, it', flow') ∧
    Claimed flow.alloc_.activeSlotCnt flow result it' flow' new := by
  have hlen : flow.active.length = flow.alloc_.activeSlotCnt := length_active h
  have hnone : it.curr_ = none := (hat.none_iff h).mpr rfl
  obtain ⟨last, hlast⟩ : ∃ last, flow.active.getLast? = some last :=
    ⟨_, getLast?_eq_some_getLast hne⟩
  have hlastEpoch := lastEpoch_eq h hlast
  cases hopen : flow.alloc_.openNew 1 memory with
  | none =>
    refine ⟨.error .outOfMemory, it, flow, [], ?_, ?_⟩
    · rw [claimSlot, hnone]
      simp only [hlastEpoch, hopen, Option.isNone_none, ite_true]
    · refine ⟨⟨.refl h, rfl, id, by simp, by simp, hat.index_lt, by simp [hnone], by simp⟩,
        by simp, by simp, ?_⟩
      intro error _
      exact ⟨hnone, by rw [hat.at_end rfl, posIdx_activeSlotCnt h]⟩
  | some alloc =>
    have hopened := openNew_opened h hopen
    have hexpand := expandAlloc_posIdx h (le_refl _) Nat.one_pos hopen
    rw [← hat.at_end rfl] at hexpand
    obtain ⟨unused, happ, hone⟩ := hopened.appended
    obtain ⟨epoch, rfl⟩ := length_eq_one_iff.mp hone
    obtain ⟨it', haccess, hat', hindex'⟩ :=
      accessEpoch_posIdx hopened.valid flow.alloc_.activeSlotCnt (by rw [hopened.count]; omega)
    have hget : alloc.active[flow.alloc_.activeSlotCnt]? = some epoch := by
      rw [happ, ← length_active h, getElem?_concat_length]
    have hcurr : it'.curr_ = some epoch := by rw [hat'.curr, hget]
    have hnew : epoch ∉ flow.active := by
      have hnodup := active_nodup hopened.valid
      rw [happ] at hnodup
      intro hold
      exact (nodup_append'.mp hnodup).2.2 hold (by simp)
    obtain ⟨expanded, hexp⟩ : ∃ expanded, expanded = { flow with alloc_ := alloc } := ⟨_, rfl⟩
    obtain ⟨placed, hplaced⟩ : ∃ placed, placed = expanded.withGate epoch
        (.setup conf.EPOCH_SIZ ((flow.storage last).deadline + flow.getEpochStep)) := ⟨_, rfl⟩
    have hsetup : setup conf expanded (alloc.posIdx flow.alloc_.activeSlotCnt)
        ((flow.storage last).deadline + flow.getEpochStep) = some placed := by
      have hacc : expanded.alloc_.access (alloc.posIdx flow.alloc_.activeSlotCnt) = some epoch := by
        rw [hexp]
        exact access_posIdx { flow with alloc_ := alloc } hopened.valid hget
      rw [setup, hacc, Option.map_some, hplaced]
    have hvalid : placed.alloc_.Valid := by
      rw [hplaced, hexp]
      exact hopened.valid
    have hactive : placed.active = flow.active ++ [epoch] := by
      rw [hplaced, hexp]
      exact happ
    have hgate : placed.storage epoch
        = .setup conf.EPOCH_SIZ ((flow.storage last).deadline + flow.getEpochStep) := by
      rw [hplaced, storage_withGate, if_pos rfl]
    have hothers : ∀ e, e ≠ epoch → placed.storage e = flow.storage e := by
      intro e he
      rw [hplaced, storage_withGate, if_neg he, hexp]
    have hfree : 0 < (placed.storage epoch).next := by
      rw [hgate]
      exact Nat.sub_pos_of_lt hconf.usable
    have hatPlaced : At placed.alloc_ it' flow.alloc_.activeSlotCnt := by
      rw [hplaced, hexp]
      exact hat'
    have hgetPlaced : placed.active[flow.alloc_.activeSlotCnt]? = some epoch := by
      rw [hactive, ← hlen, getElem?_concat_length]
    have hhere := claimed_here hvalid hatPlaced hgetPlaced hfree
    refine ⟨.ok (epoch, (placed.storage epoch).next), it', placed.withGate epoch
      { placed.storage epoch with next := (placed.storage epoch).next - 1 }, [epoch], ?_, ?_⟩
    · rw [claimSlot, hnone]
      simp only [hlastEpoch, hopen, Option.isNone_some, Bool.false_eq_true, ite_false, hexpand,
        haccess, hcurr]
      rw [← hexp, hsetup]
      simp only [claimSlot, hcurr, claimNextSlot_eq hfree]
    · have hext := hhere.ext
      have hother : ∀ e ∈ flow.active, e ≠ epoch := fun e he heq => hnew (heq ▸ he)
      have halloc : placed.alloc_ = alloc := by
        rw [hplaced, hexp]
        rfl
      have hfields : placed.handles = flow.handles ∧ placed.epochStep_ = flow.epochStep_ := by
        rw [hplaced, hexp]
        exact ⟨rfl, rfl⟩
      refine ⟨⟨⟨hext.valid, hactive, ?_, ?_, ?_, ?_⟩, hfields.1, ?_, by simp, ?_, hhere.index_lt,
        hhere.known, ?_⟩, ?_, hhere.later, by simp⟩
      · intro e he
        refine hext.kept e ?_
        rw [halloc]
        exact hopened.kept e he
      · refine le_trans ?_ hext.slotCnt_le
        rw [halloc]
        exact hopened.slotCnt_le
      · intro e he
        rw [hext.dead_eq e (by rw [hactive]; exact mem_append_left _ he),
          hothers e (hother e he)]
      · intro e he
        have hle := hext.next_le e (by rw [hactive]; exact mem_append_left _ he)
        rwa [hothers e (hother e he)] at hle
      · intro hstep
        show 0 < placed.epochStep_
        rw [hfields.2]
        exact hstep
      · intro e he
        obtain rfl : e = epoch := by simpa using he
        refine ⟨last, hlast, flow.getEpochStep, getEpochStep_nonneg flow, getEpochStep_pos, ?_⟩
        rw [hext.dead_eq e (by rw [hactive]; simp), hgate]
        rfl
      · intro e slot heq
        obtain ⟨hs, hn, -⟩ := hhere.claimed e slot heq
        obtain ⟨rfl, -⟩ : epoch = e ∧ _ := by simpa using heq
        exact ⟨hs, hn, fun he => absurd he hnew⟩
      · intro _ q hq e he
        obtain ⟨hlt, -⟩ := List.getElem?_eq_some_iff.mp he
        omega

variable {result : Except FlowError (Nat × Nat)}

theorem Allocated.of_overflow (hconf : conf.Sound)
    (h : Allocated (flow.markEpochOverflow conf) result it flow' new) : Allocated flow result it flow' new := by
  obtain ⟨halloc, hstorage, hhandles, -⟩ := markEpochOverflow_alloc conf flow
  have hactive : (flow.markEpochOverflow conf).active = flow.active := by
    rw [active, halloc]
    rfl
  obtain ⟨hext, hsame, hstep, hle, hfresh, hindex, hknown, hclaimed⟩ := h
  refine ⟨⟨hext.valid, ?_, ?_, ?_, ?_, ?_⟩, hsame.trans hhandles, ?_, hle, ?_, hindex, hknown, ?_⟩
  · rw [hext.active_eq, hactive]
  · rw [← halloc]
    exact hext.kept
  · rw [← halloc]
    exact hext.slotCnt_le
  · rw [← hactive, ← hstorage]
    exact hext.dead_eq
  · rw [← hactive, ← hstorage]
    exact hext.next_le
  · exact fun hpos => hstep (markEpochOverflow_pos hconf hpos)
  · intro e he
    obtain ⟨last, hlast, δ, hδ, hpos, hdead⟩ := hfresh e he
    rw [hactive] at hlast
    rw [hstorage] at hdead
    exact ⟨last, hlast, δ, hδ, fun hstep => hpos (markEpochOverflow_pos hconf hstep), hdead⟩
  · rw [← hactive, ← hstorage]
    exact hclaimed

/-- Claiming a slot from a position on. -/
theorem claimSlot_at (hconf : conf.Sound) (memory : Bool) (fuel : Nat)
    (h : flow.alloc_.Valid) (hat : At flow.alloc_ it pos) (hne : flow.active ≠ [])
    (hfuel : flow.alloc_.activeSlotCnt < pos + fuel) : ∃ result it' flow' new,
      claimSlot conf memory (fuel + 1) flow it = some (result, it', flow') ∧
        Claimed pos flow result it' flow' new := by
  induction fuel generalizing flow it pos with
  | zero =>
    have hle := hat.pos_le
    omega
  | succ fuel ih =>
    have hlen : flow.active.length = flow.alloc_.activeSlotCnt := length_active h
    by_cases hend : pos = flow.alloc_.activeSlotCnt
    · subst hend
      exact claimSlot_end hconf h hat hne memory fuel
    · have hlt : pos < flow.alloc_.activeSlotCnt := lt_of_le_of_ne hat.pos_le hend
      have hinside : pos < flow.active.length := by omega
      have hget : flow.active[pos]? = some flow.active[pos] := getElem?_eq_getElem hinside
      have hcurr : it.curr_ = some flow.active[pos] := by rw [hat.curr]; exact hget
      rcases Nat.eq_zero_or_pos (flow.storage flow.active[pos]).next with hfull | hfree
      · -- the Epoch is full, thus shift to the following one
        obtain ⟨it', hnext, hat', -⟩ := iterNext_at h hat hlt
        obtain ⟨halloc, hstorage, hhandles, -⟩ := markEpochOverflow_alloc conf flow
        have hactive : (flow.markEpochOverflow conf).active = flow.active := by
          rw [active, halloc]
          rfl
        obtain ⟨result, it'', flow', new, hclaim, hspec⟩ := ih
          (show (flow.markEpochOverflow conf).alloc_.Valid by rwa [halloc])
          (show At (flow.markEpochOverflow conf).alloc_ it' (pos + 1) by rwa [halloc])
          (by rwa [hactive]) (by rw [halloc]; omega)
        refine ⟨result, it'', flow', new, ?_, ?_⟩
        · rw [claimSlot, hcurr]
          simp only [claimNextSlot_none hfull, hnext, hclaim]
        · refine ⟨hspec.toAllocated.of_overflow hconf, ?_, ?_, hspec.raised⟩
          · intro hnew q hq e he
            by_cases hfirst : q = pos
            · subst hfirst
              rw [hget] at he
              rwa [← Option.some.inj he]
            · have hlater := hspec.overflow hnew q (by omega) e (by rwa [hactive])
              rwa [hstorage] at hlater
          · intro e slot heq
            obtain ⟨hc, q, hq, hget'⟩ := hspec.later e slot heq
            exact ⟨hc, q, by omega, hget'⟩
      · refine ⟨_, it, _, [], ?_, claimed_here h hat hget hfree⟩
        rw [claimSlot, hcurr]
        simp only [claimNextSlot_eq hfree]

/-! ## Handles -/

/-- Whatever a handle denotes is part of the pool, though it may be discarded meanwhile. -/
def HandleKnown (alloc : ExtentFamily) (it : EpochIter) : Prop :=
  it.index < alloc.slotCnt ∧ ∀ e, it.curr_ = some e → e ∈ alloc.extents_

/-- **The handle is not left behind**: it is at the end only as long as this is still the end. A handle
comes to the end when an allocation through this handle raises an exception. -/
def Settled (flow : BlockFlow) (handle : Nat) : Prop :=
  ∀ it ∈ flow.handles[handle]?, it.curr_ = none → it.index = flow.alloc_.after_

theorem at_of_active (h : flow.alloc_.Valid) (hknown : HandleKnown flow.alloc_ it)
    (hcurr : it.curr_ = some e) (hget : flow.active[pos]? = some e) : At flow.alloc_ it pos := by
  obtain ⟨hpos, -⟩ := List.getElem?_eq_some_iff.mp hget
  have hlen : flow.active.length = flow.alloc_.activeSlotCnt := length_active h
  exact ⟨hcurr.trans hget.symm, by omega, hknown.1, by omega⟩

theorem at_of_end (h : flow.alloc_.Valid) (hcurr : it.curr_ = none)
    (hindex : it.index = flow.alloc_.after_) : At flow.alloc_ it flow.alloc_.activeSlotCnt := by
  have hlen := length_active h
  have hnone : flow.alloc_.active[flow.alloc_.activeSlotCnt]? = none :=
    getElem?_eq_none_iff.mpr (by omega)
  exact ⟨by rw [hcurr, hnone], le_refl _, by rw [hindex]; exact h.after_lt,
    fun _ => by rw [hindex, posIdx_activeSlotCnt h]⟩

variable {memory : Bool}

theorem active_ne_nil_of_claimSlot (h : flow.alloc_.Valid) {fuel : Nat} {it' : EpochIter}
    (hat : At flow.alloc_ it pos)
    (hclaim : claimSlot conf memory fuel flow it = some (result, it', flow')) : flow.active ≠ [] := by
  intro hnil
  have hnone : it.curr_ = none := by
    have hempty : flow.alloc_.active = [] := hnil
    rw [hat.curr, hempty, getElem?_nil]
  cases fuel with
  | zero => simp [claimSlot] at hclaim
  | succ fuel => simp [claimSlot, hnone, lastEpoch_of_nil h hnil] at hclaim

theorem claimed_of_claimSlot (hconf : conf.Sound) (h : flow.alloc_.Valid) {fuel : Nat}
    {it' : EpochIter} (hat : At flow.alloc_ it pos) (hfuel : flow.alloc_.activeSlotCnt < fuel)
    (hclaim : claimSlot conf memory (fuel + 1) flow it = some (result, it', flow')) :
    ∃ new, Claimed pos flow result it' flow' new := by
  have hne := active_ne_nil_of_claimSlot h hat hclaim
  obtain ⟨result', it'', flow'', new, hclaim', hspec⟩ :=
    claimSlot_at hconf memory fuel h hat hne (by omega)
  rw [hclaim] at hclaim'
  obtain ⟨rfl, rfl, rfl⟩ := hclaim'
  exact ⟨new, hspec⟩

/-- Allocation through a handle, even when its Epoch was discarded. -/
theorem create_spec (hconf : conf.Sound) (h : flow.alloc_.Valid)
    (hknown : ∀ it ∈ flow.handles, HandleKnown flow.alloc_ it) {handle : Nat}
    (hsettled : flow.Settled handle)
    (hcreate : flow.create conf handle memory = some (result, flow')) :
    ∃ it it' mid new, flow.handles[handle]? = some it ∧ Allocated flow result it' mid new ∧
      flow' = { mid with handles := mid.handles.set handle it' } ∧
      ∀ pos, At flow.alloc_ it pos → Claimed pos flow result it' mid new := by
  rw [create] at hcreate
  cases hit : flow.handles[handle]? with
  | none => simp [hit] at hcreate
  | some it =>
    simp only [hit, Option.map_eq_some_iff, Prod.exists, Prod.mk.injEq] at hcreate
    obtain ⟨result', it', mid, hclaim, rfl, rfl⟩ := hcreate
    have hlt := activeSlotCnt_lt h
    have hknown := hknown it (mem_of_getElem? hit)
    by_cases hactive : ∃ pos, At flow.alloc_ it pos
    · obtain ⟨pos, hat⟩ := hactive
      obtain ⟨new, hspec⟩ := claimed_of_claimSlot hconf h hat (by omega) hclaim
      refine ⟨it, it', mid, new, rfl, hspec.toAllocated, rfl, ?_⟩
      intro pos' hat'
      obtain ⟨new', hspec'⟩ := claimed_of_claimSlot hconf h hat' (by omega) hclaim
      have hnew : new' = new := by
        have heq := hspec'.ext.active_eq
        rw [hspec.ext.active_eq] at heq
        exact (append_cancel_left heq).symm
      rwa [← hnew]
    · -- the Epoch of this handle was discarded
      cases hcurr : it.curr_ with
      | none => exact absurd ⟨_, at_of_end h hcurr (hsettled it hit hcurr)⟩ hactive
      | some c =>
        have hstale : c ∉ flow.active := by
          intro hmem
          obtain ⟨pos, hget⟩ := mem_iff_getElem?.mp hmem
          exact hactive ⟨pos, at_of_active h hknown hcurr hget⟩
        have hnowhere : ∀ pos, At flow.alloc_ it pos →
            ∀ new, Claimed pos flow result' it' mid new :=
          fun pos hat => absurd ⟨pos, hat⟩ hactive
        rcases Nat.eq_zero_or_pos (flow.storage c).next with hfull | hfree
        · obtain ⟨halloc, -, -, -⟩ := markEpochOverflow_alloc conf flow
          rw [claimSlot, hcurr] at hclaim
          simp only [claimNextSlot_none hfull] at hclaim
          cases hnext : it.iterNext flow.alloc_ with
          | none => simp [hnext] at hclaim
          | some it₁ =>
            simp only [hnext] at hclaim
            obtain ⟨pos, hat, -⟩ := at_of_iterNext h hknown.1 hknown.2 hnext
            obtain ⟨new, hspec⟩ := claimed_of_claimSlot hconf (by rwa [halloc])
              (by rwa [halloc]) (by rw [halloc]; omega) hclaim
            exact ⟨it, it', mid, new, rfl, hspec.toAllocated.of_overflow hconf, rfl,
              fun pos hat => hnowhere pos hat new⟩
        · rw [claimSlot, hcurr] at hclaim
          simp only [claimNextSlot_eq hfree] at hclaim
          obtain ⟨rfl, rfl, rfl⟩ := hclaim
          have hother : ∀ e ∈ flow.active, e ≠ c := fun e he heq => hstale (heq ▸ he)
          refine ⟨it, it, _, [], rfl, ?_, rfl, fun pos hat => hnowhere pos hat []⟩
          refine ⟨⟨h, (append_nil _).symm, fun _ h => h, le_refl _, ?_, ?_⟩, rfl, id,
            by simp, by simp, hknown.1, hknown.2, ?_⟩
          · intro e he
            rw [storage_withGate, if_neg (hother e he)]
          · intro e he
            rw [storage_withGate, if_neg (hother e he)]
          · intro e slot heq
            obtain ⟨rfl, rfl⟩ : c = e ∧ (flow.storage c).next = slot := by simpa using heq
            refine ⟨hfree, ?_, fun he => absurd he hstale⟩
            rw [storage_withGate, if_pos rfl]
            exact Nat.sub_lt hfree Nat.one_pos

/-! ## Finding or creating the Epoch for a deadline -/

theorem active_inj (h : flow.alloc_.Valid) {p q : Nat} (hp : flow.active[p]? = some e)
    (hq : flow.active[q]? = some e) : p = q := by
  obtain ⟨hp, hpe⟩ := List.getElem?_eq_some_iff.mp hp
  obtain ⟨hq, hqe⟩ := List.getElem?_eq_some_iff.mp hq
  have hnodup : flow.active.Nodup := active_nodup h
  exact hnodup.getElem_inj_iff.mp (hpe.trans hqe.symm)

theorem giveHandle_at (flow : BlockFlow) (h : flow.alloc_.Valid) (pos : Nat)
    (hpos : pos ≤ flow.alloc_.activeSlotCnt) :
    ∃ it, flow.giveHandle (flow.alloc_.posIdx pos)
        = some (.ok flow.handles.length, { flow with handles := flow.handles ++ [it] }) ∧
      At flow.alloc_ it pos := by
  obtain ⟨it, haccess, hat, -⟩ := accessEpoch_posIdx h pos hpos
  exact ⟨it, by rw [giveHandle, haccess, Option.map_some], hat⟩

variable {deadline : Int}

/-- The loop finds the first of the established Epochs which covers the deadline. -/
theorem findEpoch_at (fuel : Nat)
    (h : flow.alloc_.Valid) (hat : At flow.alloc_ it pos)
    (hindex : it.index = flow.alloc_.posIdx pos)
    (hbefore : ∀ q < pos, ∀ e, flow.active[q]? = some e → (flow.storage e).deadline < deadline)
    (hcovered : ∃ q ≥ pos, ∃ e, flow.active[q]? = some e ∧ deadline ≤ (flow.storage e).deadline)
    (hfuel : flow.alloc_.activeSlotCnt < pos + fuel) :
    ∃ q e it', flow.findEpoch deadline fuel it
        = some (.ok flow.handles.length, { flow with handles := flow.handles ++ [it'] }) ∧
      At flow.alloc_ it' q ∧ flow.active[q]? = some e ∧ deadline ≤ (flow.storage e).deadline ∧
      ∀ p < q, ∀ e, flow.active[p]? = some e → (flow.storage e).deadline < deadline := by
  have hlen : flow.active.length = flow.alloc_.activeSlotCnt := length_active h
  induction fuel generalizing it pos with
  | zero =>
    have hle := hat.pos_le
    omega
  | succ fuel ih =>
    obtain ⟨q, hq, c, hc, hcover⟩ := hcovered
    obtain ⟨hqlt, -⟩ := List.getElem?_eq_some_iff.mp hc
    have hinside : pos < flow.active.length := by omega
    have hget : flow.active[pos]? = some flow.active[pos] := getElem?_eq_getElem hinside
    have hcurr : it.curr_ = some flow.active[pos] := hat.curr.trans hget
    by_cases hhere : deadline ≤ (flow.storage flow.active[pos]).deadline
    · obtain ⟨it', hgive, hat'⟩ := giveHandle_at flow h pos hat.pos_le
      refine ⟨pos, _, it', ?_, hat', hget, hhere, hbefore⟩
      rw [findEpoch, hcurr]
      simp only [hhere, ite_true, hindex, hgive]
    · obtain ⟨it', hnext, hat', hindex'⟩ := iterNext_at h hat (by omega)
      have hbefore' : ∀ q < pos + 1, ∀ e, flow.active[q]? = some e →
          (flow.storage e).deadline < deadline := by
        intro q' hq' e he
        by_cases hfirst : q' = pos
        · subst hfirst
          rw [hget] at he
          rw [← Option.some.inj he]
          omega
        · exact hbefore q' (by omega) e he
      have hcovered' : ∃ q ≥ pos + 1, ∃ e, flow.active[q]? = some e ∧
          deadline ≤ (flow.storage e).deadline := by
        refine ⟨q, ?_, c, hc, hcover⟩
        by_contra hlt
        obtain rfl : q = pos := by omega
        rw [hget] at hc
        rw [← Option.some.inj hc] at hcover
        exact hhere hcover
      obtain ⟨q, e, it'', hfind, hspec⟩ := ih hat' hindex' hbefore' hcovered' (by omega)
      refine ⟨q, e, it'', ?_, hspec⟩
      rw [findEpoch, hcurr]
      simp only [hhere, ite_false, hnext, hfind]

/-- **The grid** is set up in as many Epochs as there were opened, each one epoch step after the
previous one; the handle is for the last of them. -/
theorem setupGrid_at (conf : Config) (deadline : Int) (n : Nat) {last : Int}
    (h : flow.alloc_.Valid) (hat : At flow.alloc_ it pos)
    (hindex : it.index = flow.alloc_.posIdx pos) (hroom : pos + (n + 1) ≤ flow.alloc_.activeSlotCnt)
    (hstep : 0 < flow.epochStep_) (hlow : last + n * flow.epochStep_ < deadline)
    (hhigh : deadline ≤ last + (n + 1) * flow.epochStep_) :
    ∃ it' storage', setupGrid conf deadline (n + 1) flow it last
        = some (.ok flow.handles.length,
          { flow with storage := storage', handles := flow.handles ++ [it'] }) ∧
      At flow.alloc_ it' (pos + n) ∧
      (∀ i ≤ n, ∀ e, flow.active[pos + i]? = some e →
        storage' e = .setup conf.EPOCH_SIZ (last + (i + 1) * flow.epochStep_)) ∧
      ∀ e, (∀ i ≤ n, flow.active[pos + i]? ≠ some e) → storage' e = flow.storage e := by
  have hlen : flow.active.length = flow.alloc_.activeSlotCnt := length_active h
  induction n generalizing flow it pos last with
  | zero =>
    have hinside : pos < flow.active.length := by omega
    have hget : flow.active[pos]? = some flow.active[pos] := getElem?_eq_getElem hinside
    have hcurr : it.curr_ = some flow.active[pos] := hat.curr.trans hget
    obtain ⟨placed, hplaced⟩ : ∃ placed, placed = flow.withGate flow.active[pos]
        (.setup conf.EPOCH_SIZ (last + flow.epochStep_)) := ⟨_, rfl⟩
    have hsetup : flow.setup conf it.index (last + flow.epochStep_) = some placed := by
      rw [setup, hindex, access_posIdx flow h hget, Option.map_some, hplaced]
    obtain ⟨it', hgive, hat'⟩ := giveHandle_at placed (by rw [hplaced]; exact h) pos
      (by rw [hplaced]; exact hat.pos_le)
    have halloc : placed.alloc_ = flow.alloc_ := by rw [hplaced, alloc_withGate]
    rw [halloc, ← hindex] at hgive
    have hreached : deadline ≤ last + flow.epochStep_ := by
      simpa using hhigh
    refine ⟨it', placed.storage, ?_, by rwa [halloc] at hat', ?_, ?_⟩
    · rw [setupGrid, hcurr]
      simp only [Option.isNone_some, Bool.false_eq_true, ite_false, hsetup, hreached, ite_true,
        hgive]
      rw [hplaced]
      rfl
    · intro i hi e he
      obtain rfl : i = 0 := by omega
      rw [Nat.add_zero, hget] at he
      rw [hplaced, storage_withGate, if_pos (Option.some.inj he).symm]
      simp
    · intro e he
      have hne : e ≠ flow.active[pos] := by
        intro heq
        exact he 0 (le_refl _) (by rw [Nat.add_zero, hget, heq])
      rw [hplaced, storage_withGate, if_neg hne]
  | succ n ih =>
    have hinside : pos < flow.active.length := by omega
    have hget : flow.active[pos]? = some flow.active[pos] := getElem?_eq_getElem hinside
    have hcurr : it.curr_ = some flow.active[pos] := hat.curr.trans hget
    obtain ⟨placed, hplaced⟩ : ∃ placed, placed = flow.withGate flow.active[pos]
        (.setup conf.EPOCH_SIZ (last + flow.epochStep_)) := ⟨_, rfl⟩
    have hsetup : flow.setup conf it.index (last + flow.epochStep_) = some placed := by
      rw [setup, hindex, access_posIdx flow h hget, Option.map_some, hplaced]
    have halloc : placed.alloc_ = flow.alloc_ := by rw [hplaced, alloc_withGate]
    have hactive : placed.active = flow.active := by rw [active, halloc, active]
    have hfields : placed.handles = flow.handles ∧ placed.epochStep_ = flow.epochStep_ := by
      rw [hplaced]
      exact ⟨rfl, rfl⟩
    have hbeyond : ¬ deadline ≤ last + flow.epochStep_ := by
      push_cast at hlow
      have hnonneg : 0 ≤ (n : Int) * flow.epochStep_ := mul_nonneg (by omega) hstep.le
      have hsplit : ((n : Int) + 1) * flow.epochStep_ = n * flow.epochStep_ + flow.epochStep_ := by
        ring
      omega
    obtain ⟨it₁, hnext, hat₁, hindex₁⟩ := iterNext_at h hat (by omega)
    have hshift : ∀ k : Int, last + flow.epochStep_ + k * flow.epochStep_
        = last + (k + 1) * flow.epochStep_ := by
      intro k
      ring
    obtain ⟨it', storage', hgrid, hat', hset, hother⟩ := ih
      (show placed.alloc_.Valid by rwa [halloc]) (show At placed.alloc_ it₁ (pos + 1) by rwa [halloc])
      (by rwa [halloc]) (by rw [halloc]; omega) (by rwa [hfields.2])
      (show last + flow.epochStep_ + n * placed.epochStep_ < deadline by
        rw [hfields.2, hshift]; push_cast at hlow; exact hlow)
      (by rw [hfields.2, hshift]; push_cast at hhigh; exact hhigh)
      (by rw [hactive, halloc]; exact hlen)
    rw [hactive, hfields.2] at hset
    rw [hactive] at hother
    refine ⟨it', storage', ?_, ?_, ?_, ?_⟩
    · rw [setupGrid, hcurr]
      simp only [hsetup, hbeyond, halloc, hnext]
      rw [hgrid, hplaced]
      rfl
    · rw [halloc] at hat'
      rwa [Nat.add_right_comm pos 1 n] at hat'
    · intro i hi e he
      cases i with
      | zero =>
        rw [Nat.add_zero, hget] at he
        have hlater : ∀ i ≤ n, flow.active[pos + 1 + i]? ≠ some e := by
          intro i _ hsame
          have hpos := active_inj h hsame (hget.trans he)
          omega
        rw [hother e hlater, hplaced, storage_withGate, if_pos (Option.some.inj he).symm]
        simp
      | succ i =>
        have hmem : flow.active[pos + 1 + i]? = some e := by
          rw [← he]
          congr 1
          omega
        rw [hset i (by omega) e hmem, hshift]
        rfl
    · intro e he
      have hne : e ≠ flow.active[pos] := by
        intro heq
        exact he 0 (by omega) (by rw [Nat.add_zero, hget, heq])
      have hlater : ∀ i ≤ n, flow.active[pos + 1 + i]? ≠ some e := by
        intro i hi
        have hthere := he (i + 1) (by omega)
        rwa [Nat.add_assoc, Nat.add_comm 1 i]
      rw [hother e hlater, hplaced, storage_withGate, if_neg hne]

/-- The number of new Epochs is the least one to cover the distance. -/
theorem requiredNew_spec (hstep : 0 < flow.epochStep_) {distance : Int} (hdist : 0 < distance) :
    flow.requiredNew distance = some (.error .capacity) ∨
      ∃ n : Nat, flow.requiredNew distance = some (.ok (n + 1)) ∧
        n * flow.epochStep_ < distance ∧ distance ≤ (n + 1) * flow.epochStep_ := by
  have hdiv : distance.tdiv flow.epochStep_ = distance / flow.epochStep_ :=
    Int.tdiv_eq_ediv_of_nonneg hdist.le
  have hmod : distance.tmod flow.epochStep_ = distance % flow.epochStep_ :=
    Int.tmod_eq_emod_of_nonneg hdist.le
  have hquot : 0 ≤ distance / flow.epochStep_ := Int.ediv_nonneg hdist.le hstep.le
  have hsum := Int.emod_add_mul_ediv distance flow.epochStep_
  have hrem := Int.emod_nonneg distance hstep.ne'
  have hlt := Int.emod_lt_of_pos distance hstep
  rw [requiredNew, if_neg hstep.ne', hdiv, hmod]
  by_cases hlimit : distance / flow.epochStep_ > BLOCK_EXPAND_SAFETY_LIMIT
  · exact .inl (by simp [hlimit])
  · right
    have hpass : ¬ (distance / flow.epochStep_ < 0 ∨
        distance / flow.epochStep_ > BLOCK_EXPAND_SAFETY_LIMIT) := by
      omega
    simp only [hpass]
    obtain ⟨q, hq⟩ := Int.eq_ofNat_of_zero_le hquot
    rw [hq, Int.mul_comm] at hsum
    by_cases hfract : distance % flow.epochStep_ > 0
    · refine ⟨q, ?_, by omega, ?_⟩
      · rw [if_pos hfract, hq]
        congr 2
      · have hnext : ((q : Int) + 1) * flow.epochStep_ = q * flow.epochStep_ + flow.epochStep_ := by
          ring
        omega
    · cases q with
      | zero => simp at hsum; omega
      | succ q =>
        push_cast at hsum
        have hprev : ((q : Int) + 1) * flow.epochStep_ = q * flow.epochStep_ + flow.epochStep_ := by
          ring
        refine ⟨q, ?_, by omega, by omega⟩
        rw [if_neg hfract, hq]
        rfl

theorem setupGrid_none (n : Nat) {last : Int} (hstep : flow.epochStep_ ≤ 0)
    (hlast : last < deadline) : setupGrid conf deadline n flow it last = none := by
  induction n generalizing flow it last with
  | zero => rfl
  | succ n ih =>
    have hbeyond : ¬ deadline ≤ last + flow.epochStep_ := by omega
    simp only [setupGrid, hbeyond, ite_false, ite_eq_left_iff]
    intro _
    cases hsetup : flow.setup conf it.index (last + flow.epochStep_) with
    | none => rfl
    | some placed =>
      have hsame : placed.epochStep_ = flow.epochStep_ := by
        obtain ⟨e, -, rfl⟩ := Option.map_eq_some_iff.mp hsetup
        rfl
      cases hnext : it.iterNext placed.alloc_ with
      | none => simp only [hnext]
      | some it' =>
        simp only [hnext]
        exact ih (by rwa [hsame]) (by omega)

/-- The new Epochs form a grid which starts at the last one, and just reaches the deadline. -/
def IsGrid (conf : Config) (deadline : Int) (flow flow' : BlockFlow) (new : List Nat) : Prop :=
  ∃ last ∈ flow.active.getLast?, (flow.storage last).deadline < deadline ∧ 0 < flow.epochStep_ ∧
    ∃ n : Nat, n * flow.epochStep_ < deadline - (flow.storage last).deadline ∧
      deadline - (flow.storage last).deadline ≤ (n + 1) * flow.epochStep_ ∧ new.length = n + 1 ∧
      ∀ i e : Nat, new[i]? = some e → flow'.storage e
        = .setup conf.EPOCH_SIZ ((flow.storage last).deadline + (i + 1) * flow.epochStep_)

/-- **What `until` achieves**: it gives out a handle for an Epoch, and creates new Epochs only if
needed. -/
structure Given (conf : Config) (deadline : Int) (flow flow' : BlockFlow) (nr pos : Nat)
    (new : List Nat) : Prop where
  nr_eq : nr = flow.handles.length
  ext : Extends flow flow' new
  handle : ∃ it, flow'.handles = flow.handles ++ [it] ∧ At flow'.alloc_ it pos
  inside : pos < flow'.active.length
  step_eq : flow'.epochStep_ = flow.epochStep_
  created : (flow.active = [] ∧ ∃ e, new = [e] ∧
      flow'.storage e = .setup conf.EPOCH_SIZ (deadline + flow.epochStep_) ∧ pos = 0) ∨
    (new = [] ∧ flow'.storage = flow.storage ∧
      (∀ e, flow.active[pos]? = some e → deadline ≤ (flow.storage e).deadline) ∧
      ∀ p < pos, ∀ e, flow.active[p]? = some e → (flow.storage e).deadline < deadline) ∨
    (IsGrid conf deadline flow flow' new ∧ pos + 1 = flow'.active.length)

/-- The grid is extended to the deadline. -/
theorem expandGrid_spec (conf : Config) (h : flow.alloc_.Valid) {last : Nat}
    (hlast : flow.active.getLast? = some last) (hbeyond : (flow.storage last).deadline < deadline)
    (hstep : 0 < flow.epochStep_) (memory : Bool) :
    (∃ error, flow.expandGrid conf deadline (flow.storage last).deadline memory = some (.error error, flow)) ∨
    ∃ nr flow' pos new, flow.expandGrid conf deadline (flow.storage last).deadline memory = some (.ok nr, flow') ∧
    Given conf deadline flow flow' nr pos new := by
  have hlen : flow.active.length = flow.alloc_.activeSlotCnt := length_active h
  rcases requiredNew_spec hstep (sub_pos.mpr hbeyond) with
    hlimit | ⟨n, hrequired, hlow, hhigh⟩
  · exact .inl ⟨.capacity, by simp only [expandGrid, hlimit]⟩
  · cases hopen : flow.alloc_.openNew (n + 1) memory with
    | none => exact .inl ⟨.outOfMemory, by simp [expandGrid, hrequired, hopen]⟩
    | some alloc =>
      right
      have hopened := openNew_opened h hopen
      have hexpand := expandAlloc_posIdx h (le_refl _) (Nat.succ_pos n) hopen
      rw [posIdx_activeSlotCnt h] at hexpand
      obtain ⟨unused, happ, hcount⟩ := hopened.appended
      obtain ⟨it, haccess, hat, hindex⟩ :=
        accessEpoch_posIdx hopened.valid flow.alloc_.activeSlotCnt (by rw [hopened.count]; omega)
      obtain ⟨expanded, hexp⟩ : ∃ expanded, expanded = { flow with alloc_ := alloc } := ⟨_, rfl⟩
      have halloc : expanded.alloc_ = alloc := by rw [hexp]
      have hfields : expanded.storage = flow.storage ∧ expanded.handles = flow.handles ∧
          expanded.epochStep_ = flow.epochStep_ := by
        rw [hexp]
        exact ⟨rfl, rfl, rfl⟩
      have hactive : expanded.active = flow.active ++ unused := by
        rw [active, halloc]
        exact happ
      have hvalid : expanded.alloc_.Valid := by
        rw [halloc]
        exact hopened.valid
      rw [← halloc] at hat hindex
      obtain ⟨it', storage', hgrid, hat', hset, hother⟩ := setupGrid_at conf deadline n hvalid hat
        hindex (by rw [halloc, hopened.count]) (by rwa [hfields.2.2])
        (show (flow.storage last).deadline + n * expanded.epochStep_ < deadline by
          rw [hfields.2.2]; omega)
        (by rw [hfields.2.2]; omega)
      have hnew : ∀ i, (flow.active ++ unused)[flow.alloc_.activeSlotCnt + i]? = unused[i]? := by
        intro i
        rw [getElem?_append_right (by omega), hlen, Nat.add_sub_cancel_left]
      have hnodup : (flow.active ++ unused).Nodup := by
        rw [← hactive, active, halloc]
        exact active_nodup hopened.valid
      have hold : ∀ e ∈ flow.active, storage' e = flow.storage e := by
        intro e he
        rw [hother e, hfields.1]
        intro i _ hsame
        rw [hactive, hnew] at hsame
        exact (nodup_append'.mp hnodup).2.2 he (mem_of_getElem? hsame)
      refine ⟨flow.handles.length, { expanded with
        storage := storage', handles := expanded.handles ++ [it'] },
        flow.alloc_.activeSlotCnt + n, unused, ?_, ?_⟩
      · simp only [expandGrid, hrequired, hopen, Option.isNone_some, Bool.false_eq_true, ite_false,
          hexpand, haccess]
        rw [← hexp, hgrid, hfields.2.1]
      · have hlast' : (flow.active ++ unused).length = flow.alloc_.activeSlotCnt + n + 1 := by
          rw [length_append]
          omega
        refine ⟨rfl, ⟨?_, hactive, ?_, ?_, ?_, ?_⟩, ⟨it', ?_, hat'⟩, ?_, hfields.2.2,
          .inr (.inr ⟨⟨last, hlast, hbeyond, hstep, n, hlow, hhigh, hcount, ?_⟩, ?_⟩)⟩
        · rw [halloc]
          exact hopened.valid
        · rw [halloc]
          exact hopened.kept
        · rw [halloc]
          exact hopened.slotCnt_le
        · intro e he
          show (storage' e).dead = _
          rw [hold e he]
        · intro e he
          show (storage' e).next ≤ _
          rw [hold e he]
        · rw [hfields.2.1]
        · show _ < expanded.active.length
          rw [hactive]
          omega
        · intro i e he
          obtain ⟨hi, -⟩ := List.getElem?_eq_some_iff.mp he
          have hget := hset i (by omega) e (by rw [hactive, hnew, he])
          rwa [hfields.2.2] at hget
        · show _ = expanded.active.length
          rw [hactive, hlast']

/-- Creating the only Epoch. -/
theorem until_of_nil (conf : Config) (h : flow.alloc_.Valid) (hnil : flow.active = []) (deadline : Int)
    (memory : Bool) : (∃ error, flow.until conf deadline memory = some (.error error, flow)) ∨ ∃ nr flow' new,
    flow.until conf deadline memory = some (.ok nr, flow') ∧ Given conf deadline flow flow' nr 0 new := by
  have hempty : flow.alloc_.empty := (empty_iff h).mpr hnil
  cases hopen : flow.alloc_.openNew 1 memory with
  | none => exact .inl ⟨.outOfMemory, by simp [BlockFlow.until, hempty, hopen]⟩
  | some alloc =>
    right
    have hopened := openNew_opened h hopen
    obtain ⟨unused, happ, hone⟩ := hopened.appended
    obtain ⟨e, rfl⟩ := length_eq_one_iff.mp hone
    have hactive : alloc.active = [e] := by
      have hnil' : flow.alloc_.active = [] := hnil
      rw [happ, hnil', nil_append]
    obtain ⟨placed, hplaced⟩ : ∃ placed, placed = ({ flow with alloc_ := alloc } : BlockFlow).withGate
        e (.setup conf.EPOCH_SIZ (deadline + flow.epochStep_)) := ⟨_, rfl⟩
    have hget : ({ flow with alloc_ := alloc } : BlockFlow).active[0]? = some e := by
      rw [active, hactive]
      rfl
    have haccess := access_posIdx { flow with alloc_ := alloc } hopened.valid hget
    rw [posIdx_zero hopened.valid] at haccess
    have hsetup : setup conf { flow with alloc_ := alloc } alloc.start_
        (deadline + flow.epochStep_) = some placed := by
      rw [setup, haccess, Option.map_some, hplaced]
    have halloc : placed.alloc_ = alloc := by rw [hplaced, alloc_withGate]
    obtain ⟨it, hgive, hat⟩ := giveHandle_at placed (by rw [halloc]; exact hopened.valid) 0
      (by omega)
    rw [posIdx_zero (by rw [halloc]; exact hopened.valid)] at hgive
    refine ⟨flow.handles.length, { placed with handles := placed.handles ++ [it] }, [e], ?_, ?_⟩
    · simp only [BlockFlow.until, hempty, hopen, hsetup, hgive]
      rw [hplaced]
      rfl
    · refine ⟨rfl, ⟨?_, ?_, ?_, ?_, by simp [hnil], by simp [hnil]⟩, ⟨it, ?_, hat⟩, ?_, ?_,
        .inl ⟨hnil, e, rfl, ?_, rfl⟩⟩
      · rw [halloc]
        exact hopened.valid
      · rw [active, halloc, hactive, hnil, nil_append]
      · rw [halloc]
        exact hopened.kept
      · rw [halloc]
        exact hopened.slotCnt_le
      · rw [hplaced]
        rfl
      · rw [active, halloc, hactive]
        exact Nat.one_pos
      · rw [hplaced]
        rfl
      · rw [hplaced, storage_withGate, if_pos rfl]

theorem given_of_existing (h : flow.alloc_.Valid)
    (hat : At flow.alloc_ it pos) (hget : flow.active[pos]? = some e)
    (hcover : deadline ≤ (flow.storage e).deadline)
    (hbefore : ∀ p < pos, ∀ e, flow.active[p]? = some e → (flow.storage e).deadline < deadline) :
    Given conf deadline flow { flow with handles := flow.handles ++ [it] } flow.handles.length pos
      [] := by
  obtain ⟨hlt, -⟩ := List.getElem?_eq_some_iff.mp hget
  refine ⟨rfl, ⟨h, (append_nil _).symm, fun _ h => h, le_refl _, fun _ _ => rfl,
    fun _ _ => le_refl _⟩, ⟨it, rfl, hat⟩, hlt, rfl, .inr (.inl ⟨rfl, rfl, ?_, hbefore⟩)⟩
  intro e' he'
  rw [hget] at he'
  rwa [← Option.some.inj he']

/-- What `until` yields, whether or not the epoch step is positive. -/
theorem until_cases (conf : Config) (h : flow.alloc_.Valid) (deadline : Int) (memory : Bool) :
    (flow.until conf deadline memory = none ∧ flow.epochStep_ ≤ 0) ∨
    (∃ error, flow.until conf deadline memory = some (.error error, flow)) ∨
    ∃ nr flow' pos new, flow.until conf deadline memory = some (.ok nr, flow') ∧
      Given conf deadline flow flow' nr pos new := by
  by_cases hnil : flow.active = []
  · rcases until_of_nil conf h hnil deadline memory with herror | ⟨nr, flow', new, hgiven⟩
    · exact .inr (.inl herror)
    · exact .inr (.inr ⟨nr, flow', 0, new, hgiven⟩)
  have hempty : ¬ flow.alloc_.empty := by rwa [empty_iff h]
  have hpos : 0 < flow.active.length := length_pos_iff.mpr hnil
  have hget : flow.active[0]? = some flow.active[0] := getElem?_eq_getElem hpos
  have hfirst := firstEpoch_eq h hget
  obtain ⟨last, hlast⟩ : ∃ last, flow.active.getLast? = some last :=
    ⟨_, getLast?_eq_some_getLast hnil⟩
  have hlastEpoch := lastEpoch_eq h hlast
  have hunfold : flow.until conf deadline memory =
      if (flow.storage flow.active[0]).deadline ≥ deadline then flow.giveHandle flow.alloc_.start_
      else if (flow.storage last).deadline < deadline then
        flow.expandGrid conf deadline (flow.storage last).deadline memory
      else
        (EpochIter.accessEpoch flow.alloc_ flow.alloc_.start_).bind fun epochIt =>
          flow.findEpoch deadline (flow.alloc_.slotCnt + 1) epochIt := by
    simp only [BlockFlow.until, hempty, hfirst, hlastEpoch]
    cases EpochIter.accessEpoch flow.alloc_ flow.alloc_.start_ <;> rfl
  rw [hunfold]
  by_cases hpast : (flow.storage flow.active[0]).deadline ≥ deadline
  · obtain ⟨it, hgive, hat⟩ := giveHandle_at flow h 0 (Nat.zero_le _)
    rw [posIdx_zero h] at hgive
    refine .inr (.inr ⟨_, _, 0, [], ?_, given_of_existing h hat hget hpast (by simp)⟩)
    rw [if_pos hpast, hgive]
  rw [if_neg hpast]
  by_cases hbeyond : (flow.storage last).deadline < deadline
  · rw [if_pos hbeyond]
    rcases le_or_gt flow.epochStep_ 0 with hstep | hstep
    · -- without a positive epoch step there is no grid
      cases hexpand : flow.expandGrid conf deadline (flow.storage last).deadline memory with
      | none => exact .inl ⟨rfl, hstep⟩
      | some r =>
        rw [expandGrid] at hexpand
        cases hrequired : flow.requiredNew (deadline - (flow.storage last).deadline) with
        | none => simp [hrequired] at hexpand
        | some required =>
          cases required with
          | error raised =>
            simp only [hrequired] at hexpand
            cases hexpand
            exact .inr (.inl ⟨raised, rfl⟩)
          | ok n =>
            simp only [hrequired] at hexpand
            split_ifs at hexpand with hopen
            · cases hexpand
              exact .inr (.inl ⟨.outOfMemory, rfl⟩)
            · have hnone : ∀ alloc it, setupGrid conf deadline n { flow with alloc_ := alloc } it
                  (flow.storage last).deadline = none :=
                fun alloc it => setupGrid_none n hstep hbeyond
              split at hexpand
              · cases hexpand
              · split at hexpand
                · cases hexpand
                · simp [hnone] at hexpand
    · rcases expandGrid_spec conf h hlast hbeyond hstep memory with
        herror | ⟨nr, flow', pos, new, hgiven⟩
      · exact .inr (.inl herror)
      · exact .inr (.inr ⟨nr, flow', pos, new, hgiven⟩)
  · obtain ⟨it, haccess, hat, hindex⟩ := accessEpoch_posIdx h 0 (Nat.zero_le _)
    have hstart := posIdx_zero h
    rw [hstart] at haccess
    have hlt := activeSlotCnt_lt h
    have hcovered : ∃ q ≥ 0, ∃ e, flow.active[q]? = some e ∧
        deadline ≤ (flow.storage e).deadline := by
      refine ⟨flow.active.length - 1, Nat.zero_le _, last, ?_, by omega⟩
      rw [← getLast?_eq_getElem?, hlast]
    obtain ⟨q, e, it', hfind, hat', hget', hcover, hbefore⟩ :=
      findEpoch_at (flow.alloc_.slotCnt + 1) h hat hindex (by simp) hcovered (by omega)
    refine .inr (.inr ⟨_, _, q, [], ?_, given_of_existing h hat' hget' hcover hbefore⟩)
    rw [if_neg hbeyond, haccess]
    exact hfind

/-! ## Clean-up -/

/-- The Epochs to discard: the oldest ones, up to the first which is still alive. -/
def discardable (flow : BlockFlow) (deadline : Int) : List EpochGate :=
  (flow.active.map flow.storage).takeWhile fun gate => !gate.isAlive deadline

/-- The regulation based on the discarded Epochs, one after the other. -/
def regulate (conf : Config) : BlockFlow → List EpochGate → Option BlockFlow
  | flow, [] => some flow
  | flow, gate :: rest =>
    ((flow.updatePastDeadline gate.deadline).2.markEpochUnderflow conf
      (gate.deadline - (flow.updatePastDeadline gate.deadline).1)
      (gate.getFillFactor conf.EPOCH_SIZ)).bind fun flow => regulate conf flow rest

theorem markEpochUnderflow_alloc {actualLen : Int} {fillFactor : ℚ}
    (hmark : flow.markEpochUnderflow conf actualLen fillFactor = some flow') :
    flow'.alloc_ = flow.alloc_ ∧ flow'.storage = flow.storage ∧ flow'.handles = flow.handles := by
  rw [markEpochUnderflow, Option.ite_none_left_eq_some, Option.some.injEq] at hmark
  obtain ⟨-, rfl⟩ := hmark
  simp [adjustEpochStep]

theorem regulate_alloc {gates : List EpochGate} (hreg : regulate conf flow gates = some flow') :
    flow'.alloc_ = flow.alloc_ ∧ flow'.storage = flow.storage ∧ flow'.handles = flow.handles := by
  induction gates generalizing flow with
  | nil =>
    cases hreg
    exact ⟨rfl, rfl, rfl⟩
  | cons gate rest ih =>
    obtain ⟨mid, hmark, hrest⟩ := Option.bind_eq_some_iff.mp hreg
    obtain ⟨halloc, hstorage, hhandles⟩ := markEpochUnderflow_alloc hmark
    obtain ⟨halloc', hstorage', hhandles'⟩ := ih hrest
    exact ⟨halloc'.trans halloc, hstorage'.trans hstorage, hhandles'.trans hhandles⟩

/-- The loop counts the Epochs to discard, while regulating. -/
theorem discardEpochs_eq (conf : Config) (deadline : Int) (fuel : Nat)
    (h : flow.alloc_.Valid) (hat : At flow.alloc_ it pos)
    (hfuel : flow.alloc_.activeSlotCnt < pos + fuel) :
    discardEpochs conf deadline fuel flow it =
      (regulate conf flow (((flow.active.drop pos).map flow.storage).takeWhile
        fun gate => !gate.isAlive deadline)).map fun mid =>
          ((((flow.active.drop pos).map flow.storage).takeWhile
            fun gate => !gate.isAlive deadline).length, mid) := by
  have hlen : flow.active.length = flow.alloc_.activeSlotCnt := length_active h
  induction fuel generalizing flow it pos with
  | zero =>
    have hle := hat.pos_le
    omega
  | succ fuel ih =>
    by_cases hend : pos = flow.alloc_.activeSlotCnt
    · have hnone : it.curr_ = none := (hat.none_iff h).mpr hend
      have hdrop : flow.active.drop pos = [] := drop_eq_nil_iff.mpr (by omega)
      rw [discardEpochs, hnone, hdrop]
      rfl
    · have hlt : pos < flow.alloc_.activeSlotCnt := lt_of_le_of_ne hat.pos_le hend
      have hinside : pos < flow.active.length := by omega
      have hcurr : it.curr_ = some flow.active[pos] := by
        rw [hat.curr]
        exact getElem?_eq_getElem hinside
      have hdrop : flow.active.drop pos = flow.active[pos] :: flow.active.drop (pos + 1) :=
        drop_eq_getElem_cons hinside
      rw [hdrop, map_cons]
      by_cases halive : (flow.storage flow.active[pos]).isAlive deadline
      · rw [discardEpochs, hcurr, takeWhile_cons_of_neg (by simp [halive])]
        simp only [halive]
        rfl
      · rw [discardEpochs, hcurr, takeWhile_cons_of_pos (by simp [halive])]
        simp only [halive, regulate]
        cases hmark : (flow.updatePastDeadline
          (flow.storage flow.active[pos]).deadline).2.markEpochUnderflow
            conf ((flow.storage flow.active[pos]).deadline
              - (flow.updatePastDeadline (flow.storage flow.active[pos]).deadline).1)
            ((flow.storage flow.active[pos]).getFillFactor conf.EPOCH_SIZ) with
        | none => rfl
        | some mid =>
          obtain ⟨halloc, hstorage, -⟩ := markEpochUnderflow_alloc hmark
          have halloc : mid.alloc_ = flow.alloc_ := halloc
          have hactive : mid.active = flow.active := by rw [active, halloc, active]
          obtain ⟨it', hnext, hat', -⟩ := iterNext_at h hat hlt
          have hrest := ih (show mid.alloc_.Valid by rwa [halloc])
            (show At mid.alloc_ it' (pos + 1) by rwa [halloc]) (by rw [halloc]; omega)
            (by rw [hactive, halloc]; exact hlen)
          rw [hactive, hstorage] at hrest
          simp only [halloc, hnext, hrest, Option.map_map]
          rfl

theorem dropOld_zero {alloc : ExtentFamily} (h : alloc.Valid) : alloc.dropOld 0 = some alloc := by
  have hstay : alloc.incWrap alloc.start_ 0 = alloc.start_ := Nat.mod_eq_of_lt h.start_lt
  simp [dropOld, hstay]

/-- What `discardBefore` does: it discards those Epochs, after regulating based on them. -/
theorem discardBefore_eq (conf : Config) (h : flow.alloc_.Valid) (deadline : Int) :
    ∃ alloc, flow.alloc_.dropOld (flow.discardable deadline).length = some alloc ∧
      flow.discardBefore conf deadline
        = (regulate conf flow (flow.discardable deadline)).map fun mid =>
          { mid with alloc_ := alloc } := by
  have hlen : flow.active.length = flow.alloc_.activeSlotCnt := length_active h
  have hlt := activeSlotCnt_lt h
  have hcount : (flow.discardable deadline).length ≤ flow.alloc_.activeSlotCnt := by
    rw [← hlen, ← length_map flow.storage]
    exact (takeWhile_sublist _).length_le
  obtain ⟨alloc, hdrop⟩ : ∃ alloc, flow.alloc_.dropOld (flow.discardable deadline).length
      = some alloc := ⟨_, if_pos hcount⟩
  refine ⟨alloc, hdrop, ?_⟩
  by_cases hnil : flow.active = []
  · have hnone : flow.discardable deadline = [] := by simp [discardable, hnil]
    rw [hnone, length_nil, dropOld_zero h] at hdrop
    cases hdrop
    rw [discardBefore, if_pos ((empty_iff h).mpr hnil), hnone]
    rfl
  have hempty : ¬ flow.alloc_.empty := by rwa [empty_iff h]
  have hinside : 0 < flow.active.length := length_pos_iff.mpr hnil
  have hget : flow.active[0]? = some flow.active[0] := getElem?_eq_getElem hinside
  have hfirst := firstEpoch_eq h hget
  have hcons : flow.active = flow.active[0] :: flow.active.drop 1 := by
    rw [← drop_eq_getElem_cons hinside, drop_zero]
  rw [discardBefore, if_neg hempty, hfirst]
  by_cases hfuture : (flow.storage flow.active[0]).deadline > deadline
  · have halive : (flow.storage flow.active[0]).isAlive deadline := by
      simp [EpochGate.isAlive, EpochGate.isDead, hfuture]
    have hnone : flow.discardable deadline = [] := by
      rw [discardable, hcons, map_cons, takeWhile_cons_of_neg (by simp [halive])]
    rw [hnone, length_nil, dropOld_zero h] at hdrop
    cases hdrop
    simp only [hfuture, hnone]
    rfl
  · obtain ⟨it, haccess, hat, -⟩ := accessEpoch_posIdx h 0 (Nat.zero_le _)
    rw [posIdx_zero h] at haccess
    have hloop := discardEpochs_eq conf deadline (flow.alloc_.slotCnt + 1) h hat (by omega)
    rw [drop_zero] at hloop
    simp only [hfuture, ite_false, haccess, hloop]
    cases hreg : regulate conf flow (flow.discardable deadline) with
    | none =>
      rw [discardable] at hreg
      simp only [hreg, Option.map_none]
    | some mid =>
      obtain ⟨halloc, -, -⟩ := regulate_alloc hreg
      rw [discardable] at hreg hdrop
      simp only [hreg, Option.map_some, halloc, hdrop]

end BlockFlow

end Lumiera.Vault.Gear.Extents
