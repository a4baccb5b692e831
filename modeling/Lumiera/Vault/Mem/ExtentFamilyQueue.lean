import Mathlib.Data.List.Perm.Basic
import Lumiera.Vault.Mem.ExtentFamily

/-! # The extents as a queue

The active extents are a window into the array, which is read cyclically from `start_` on; thus
`active` is taken from the rotated array. With this view the operations of the pool turn into
operations on the front and on the back of a queue, and a position within the queue is an offset
from `start_`. -/

namespace Lumiera.Vault.Mem

open List

namespace ExtentFamily

variable {exFam exFam' : ExtentFamily}

/-! ## Indices -/

/-- The index of a position in the queue of active extents. -/
def posIdx (exFam : ExtentFamily) (pos : Nat) : Nat := exFam.incWrap exFam.start_ pos

theorem mod_once {a n : Nat} (hlo : n ≤ a) (hhi : a < n + n) : a % n = a - n := by
  rw [Nat.mod_eq_sub_mod hlo, Nat.mod_eq_of_lt (by omega)]

variable {pos : Nat}

theorem posIdx_eq (h : exFam.Valid) (hpos : pos < exFam.slotCnt) :
    exFam.posIdx pos = if exFam.start_ + pos < exFam.slotCnt then exFam.start_ + pos
      else exFam.start_ + pos - exFam.slotCnt := by
  have hstart := h.start_lt
  split_ifs with hwrap
  · exact Nat.mod_eq_of_lt hwrap
  · exact mod_once (by omega) (by omega)

theorem posIdx_lt (h : exFam.Valid) (pos : Nat) : exFam.posIdx pos < exFam.slotCnt :=
  Nat.mod_lt _ (by have := h.start_lt; omega)

theorem posIdx_zero (h : exFam.Valid) : exFam.posIdx 0 = exFam.start_ :=
  Nat.mod_eq_of_lt h.start_lt

theorem activeSlotCnt_eq (exFam : ExtentFamily) : exFam.activeSlotCnt = if exFam.after_ < exFam.start_
    then exFam.after_ + (exFam.slotCnt - exFam.start_) else exFam.after_ - exFam.start_ := by
  simp only [activeSlotCnt, isWrapped, decide_eq_true_eq]
  split_ifs <;> omega

theorem activeSlotCnt_lt (h : exFam.Valid) : exFam.activeSlotCnt < exFam.slotCnt := by
  have hafter := h.after_lt
  rw [activeSlotCnt_eq]
  split_ifs <;> omega

theorem posIdx_activeSlotCnt (h : exFam.Valid) : exFam.posIdx exFam.activeSlotCnt = exFam.after_ := by
  have hstart := h.start_lt
  have hafter := h.after_lt
  rw [posIdx_eq h (activeSlotCnt_lt h), activeSlotCnt_eq]
  split_ifs <;> omega

variable {cnt : Nat}

theorem activeSlotCnt_of_posIdx (h : exFam.Valid) (hcnt : cnt < exFam.slotCnt)
    (hafter : exFam.after_ = exFam.posIdx cnt) : exFam.activeSlotCnt = cnt := by
  have hstart := h.start_lt
  rw [posIdx_eq h hcnt] at hafter
  rw [activeSlotCnt_eq, hafter]
  split_ifs <;> omega

theorem posIdx_inj (h : exFam.Valid) {pos' : Nat} (hpos : pos < exFam.slotCnt) (hpos' : pos' < exFam.slotCnt)
    (heq : exFam.posIdx pos = exFam.posIdx pos') : pos = pos' := by
  rw [posIdx_eq h hpos, posIdx_eq h hpos'] at heq
  split_ifs at heq <;> omega

theorem iterNext_posIdx (pos : Nat) : exFam.iterNext (exFam.posIdx pos) = exFam.posIdx (pos + 1) := by
  rw [iterNext, posIdx, posIdx, incWrap, incWrap, incWrap, Nat.mod_add_mod, Nat.add_assoc]

theorem isValidPos_posIdx (h : exFam.Valid) (hpos : pos < exFam.slotCnt) :
    exFam.isValidPos (exFam.posIdx pos) = decide (pos < exFam.activeSlotCnt) := by
  have hstart := h.start_lt
  have hafter := h.after_lt
  rw [Bool.eq_iff_iff]
  rw [posIdx_eq h hpos]
  simp only [isValidPos, isWrapped, activeSlotCnt_eq, decide_eq_true_eq]
  split_ifs <;> simp only [Bool.or_eq_true, Bool.and_eq_true, decide_eq_true_eq] <;> omega

theorem exists_posIdx (h : exFam.Valid) {index : Nat} (hindex : index < exFam.slotCnt) :
    ∃ pos < exFam.slotCnt, exFam.posIdx pos = index := by
  have hstart := h.start_lt
  by_cases hle : exFam.start_ ≤ index
  · refine ⟨index - exFam.start_, by omega, ?_⟩
    rw [posIdx_eq h (by omega), if_pos (by omega)]
    omega
  · refine ⟨index + exFam.slotCnt - exFam.start_, by omega, ?_⟩
    rw [posIdx_eq h (by omega), if_neg (by omega)]
    omega

/-! ## The active extents -/

theorem length_active (h : exFam.Valid) : exFam.active.length = exFam.activeSlotCnt := by
  have hlt := activeSlotCnt_lt h
  rw [slotCnt] at hlt
  rw [active, length_take, length_rotate]
  omega

theorem extents_nodup (h : exFam.Valid) : exFam.extents_.Nodup :=
  h.extents_perm.nodup_iff.mpr nodup_range

theorem active_nodup (h : exFam.Valid) : exFam.active.Nodup :=
  (nodup_rotate.mpr (extents_nodup h)).sublist (take_sublist _ _)

theorem mem_extents_of_active {extent : Nat} (hmem : extent ∈ exFam.active) : extent ∈ exFam.extents_ :=
  mem_rotate.mp (mem_of_mem_take hmem)

theorem extents_posIdx (hpos : pos < exFam.slotCnt) :
    exFam.extents_[exFam.posIdx pos]? = (exFam.extents_.rotate exFam.start_)[pos]? := by
  rw [getElem?_rotate hpos, posIdx, incWrap, slotCnt, Nat.add_comm]

theorem extents_posIdx_active (h : exFam.Valid) (hpos : pos < exFam.activeSlotCnt) :
    exFam.extents_[exFam.posIdx pos]? = exFam.active[pos]? := by
  rw [extents_posIdx (hpos.trans (activeSlotCnt_lt h)), active, getElem?_take_of_lt hpos]

theorem iterate_posIdx (h : exFam.Valid) (fuel pos : Nat) (hpos : pos ≤ exFam.activeSlotCnt)
    (hfuel : exFam.activeSlotCnt < pos + fuel) :
    exFam.iterate fuel (exFam.posIdx pos) = some (exFam.active.drop pos) := by
  have hlt := activeSlotCnt_lt h
  induction fuel generalizing pos with
  | zero => omega
  | succ fuel ih =>
    by_cases hend : pos = exFam.activeSlotCnt
    · rw [hend, iterate, posIdx_activeSlotCnt h]
      simp [checkPoint, length_active h]
    · have hcheck : exFam.checkPoint (exFam.posIdx pos) := by
        simp only [checkPoint, decide_eq_true_eq]
        rw [← posIdx_activeSlotCnt h]
        intro heq
        exact hend (posIdx_inj h (by omega) hlt heq)
      have hinside : pos < exFam.active.length := by
        rw [length_active h]
        omega
      have haccess : exFam.access (exFam.posIdx pos) = some exFam.active[pos] := by
        rw [access, isValidPos_posIdx h (by omega), if_pos (by simp; omega),
          extents_posIdx_active h (by omega), getElem?_eq_getElem hinside]
      rw [iterate, if_pos hcheck, haccess, Option.bind_some, iterNext_posIdx,
        ih (pos + 1) (by omega) (by omega), Option.map_some, drop_eq_getElem_cons hinside]

/-- Iterating from `begin()` to `end()` yields the active extents. -/
theorem eachExtent_eq (h : exFam.Valid) : exFam.eachExtent = some exFam.active := by
  have hlt := activeSlotCnt_lt h
  have hiter := iterate_posIdx h exFam.slotCnt 0 (by omega) (by omega)
  rwa [posIdx_zero h, drop_zero] at hiter

theorem last_eq (h : exFam.Valid) (hne : 0 < exFam.activeSlotCnt) :
    exFam.last = some (exFam.posIdx (exFam.activeSlotCnt - 1)) := by
  have hlt := activeSlotCnt_lt h
  have hopen : exFam.start_ ≠ exFam.after_ := by
    intro heq
    rw [activeSlotCnt_eq] at hne
    split_ifs at hne <;> omega
  rw [last, empty, if_neg (by simp [hopen])]
  congr 1
  rw [← posIdx_activeSlotCnt h, posIdx, posIdx, incWrap, incWrap, incWrap, Nat.mod_add_mod]
  have hsum : exFam.start_ + exFam.activeSlotCnt + (exFam.slotCnt - 1)
      = exFam.start_ + (exFam.activeSlotCnt - 1) + exFam.slotCnt := by omega
  rw [hsum, Nat.add_mod_right]

/-! ## Discarding at the front -/

theorem dropOld_valid (h : exFam.Valid) (hdrop : exFam.dropOld cnt = some exFam') : exFam'.Valid := by
  simp only [dropOld, Option.ite_none_right_eq_some, Option.some.injEq] at hdrop
  obtain ⟨-, rfl⟩ := hdrop
  exact ⟨posIdx_lt h cnt, h.after_lt, h.extents_perm⟩

/-- Discarding removes the oldest extents. -/
theorem dropOld_active (h : exFam.Valid) (hdrop : exFam.dropOld cnt = some exFam') :
    exFam'.active = exFam.active.drop cnt ∧ exFam'.extents_ = exFam.extents_ := by
  have h' := dropOld_valid h hdrop
  have hlt := activeSlotCnt_lt h
  simp only [dropOld, Option.ite_none_right_eq_some, Option.some.injEq] at hdrop
  obtain ⟨hle, rfl⟩ := hdrop
  refine ⟨?_, rfl⟩
  have hcnt : ({ exFam with start_ := exFam.incWrap exFam.start_ cnt } : ExtentFamily).activeSlotCnt
      = exFam.activeSlotCnt - cnt := by
    apply activeSlotCnt_of_posIdx h' (by show _ < exFam.slotCnt; omega)
    show exFam.after_ = exFam.incWrap (exFam.incWrap exFam.start_ cnt) (exFam.activeSlotCnt - cnt)
    rw [← posIdx_activeSlotCnt h, posIdx, incWrap, incWrap, incWrap, Nat.mod_add_mod]
    congr 1
    omega
  rw [active, hcnt]
  have hrot : exFam.extents_.rotate (exFam.incWrap exFam.start_ cnt)
      = (exFam.extents_.rotate exFam.start_).rotate cnt := by
    rw [rotate_rotate, incWrap, slotCnt, rotate_mod]
  have hlen : (exFam.extents_.rotate exFam.start_).length = exFam.slotCnt := length_rotate _ _
  rw [hrot, rotate_eq_drop_append_take (by omega), take_append_of_le_length
    (by rw [length_drop]; omega), active, drop_take]

/-! ## Opening at the back -/

theorem bump_active (h : exFam.Valid) (hcnt : exFam.canAccomodate cnt) :
    let bumped := { exFam with after_ := exFam.incWrap exFam.after_ cnt }
    bumped.Valid ∧ bumped.activeSlotCnt = exFam.activeSlotCnt + cnt ∧
      bumped.active = exFam.active ++
        ((exFam.extents_.rotate exFam.start_).drop exFam.activeSlotCnt).take cnt := by
  intro bumped
  have hroom : exFam.activeSlotCnt + cnt < exFam.slotCnt := by
    have hfree : cnt < exFam.slotCnt - exFam.activeSlotCnt := of_decide_eq_true hcnt
    omega
  have hvalid : bumped.Valid :=
    ⟨h.start_lt, Nat.mod_lt _ (by have := h.start_lt; omega), h.extents_perm⟩
  have hcount : bumped.activeSlotCnt = exFam.activeSlotCnt + cnt := by
    apply activeSlotCnt_of_posIdx hvalid hroom
    show exFam.incWrap exFam.after_ cnt = exFam.posIdx (exFam.activeSlotCnt + cnt)
    rw [← posIdx_activeSlotCnt h, posIdx, posIdx, incWrap, incWrap, incWrap, Nat.mod_add_mod,
      Nat.add_assoc]
  refine ⟨hvalid, hcount, ?_⟩
  rw [active, hcount, take_add, active]

theorem grow_slotCnt (exFam : ExtentFamily) (h : exFam.Valid) (addSiz : Nat) :
    (exFam.grow addSiz).slotCnt = exFam.slotCnt + addSiz := by
  have hle : exFam.start_ ≤ exFam.extents_.length := h.start_lt.le
  by_cases hwrap : exFam.isWrapped
  · simp only [grow, hwrap, ite_true, slotCnt, rotateRange, length_append, length_take,
      length_drop, length_range']
    omega
  · simp [grow, hwrap, slotCnt]

/-- Growing the pool keeps the queue, and adds the new extents to the reserve. -/
theorem grow_active (h : exFam.Valid) (addSiz : Nat) :
    (exFam.grow addSiz).Valid ∧ (exFam.grow addSiz).activeSlotCnt = exFam.activeSlotCnt ∧
      (exFam.grow addSiz).active = exFam.active ∧
      (exFam.grow addSiz).extents_.Perm (exFam.extents_ ++ List.range' exFam.slotCnt addSiz) := by
  have hstart := h.start_lt
  have hafter := h.after_lt
  have hlen := grow_slotCnt exFam h addSiz
  have hcount := activeSlotCnt_eq exFam
  have hrange : List.range exFam.slotCnt ++ List.range' exFam.slotCnt addSiz
      = List.range (exFam.slotCnt + addSiz) := by
    rw [range_eq_range', range_eq_range', ← range'_append_1, Nat.zero_add]
  have hnames : (exFam.extents_ ++ List.range' exFam.slotCnt addSiz).Perm
      (List.range (exFam.slotCnt + addSiz)) := by
    rw [← hrange]
    exact h.extents_perm.append_right _
  have hsplit : exFam.extents_.rotate exFam.start_
      = exFam.extents_.drop exFam.start_ ++ exFam.extents_.take exFam.start_ :=
    rotate_eq_drop_append_take hstart.le
  have hsegment : (exFam.extents_.drop exFam.start_).length = exFam.slotCnt - exFam.start_ :=
    length_drop
  by_cases hwrap : exFam.after_ < exFam.start_
  · -- the new extents are placed right before the segment which starts at `start_`
    have hgrow : exFam.grow addSiz = { exFam with
        extents_ := exFam.extents_.take exFam.start_ ++ List.range' exFam.slotCnt addSiz
          ++ exFam.extents_.drop exFam.start_
        start_ := exFam.start_ + addSiz } := by
      have hle : exFam.start_ ≤ exFam.extents_.length := hstart.le
      simp [grow, isWrapped, hwrap, rotateRange, slotCnt, take_append_of_le_length hle]
    have hperm : (exFam.grow addSiz).extents_.Perm
        (exFam.extents_ ++ List.range' exFam.slotCnt addSiz) := by
      rw [hgrow]
      rw [append_assoc]
      refine (List.Perm.append_left _ perm_append_comm).trans ?_
      rw [← append_assoc, take_append_drop]
    have hvalid : (exFam.grow addSiz).Valid := by
      refine ⟨?_, ?_, ?_⟩
      · rw [hlen, hgrow]
        show exFam.start_ + addSiz < exFam.slotCnt + addSiz
        omega
      · rw [hlen, hgrow]
        show exFam.after_ < exFam.slotCnt + addSiz
        omega
      · rw [hlen]
        exact hperm.trans hnames
    have hcount' : (exFam.grow addSiz).activeSlotCnt = exFam.activeSlotCnt := by
      rw [activeSlotCnt_eq, hlen, hgrow, hcount]
      show (if exFam.after_ < exFam.start_ + addSiz
        then exFam.after_ + (exFam.slotCnt + addSiz - (exFam.start_ + addSiz))
        else exFam.after_ - (exFam.start_ + addSiz)) = _
      split_ifs <;> omega
    refine ⟨hvalid, hcount', ?_, hperm⟩
    rw [active, hcount', hgrow]
    have hfront : (exFam.extents_.take exFam.start_ ++ List.range' exFam.slotCnt addSiz).length
        = exFam.start_ + addSiz := by
      have hle : exFam.start_ ≤ exFam.extents_.length := hstart.le
      simp [hle]
    rw [← hfront, rotate_append_length_eq, active, hsplit, ← append_assoc]
    apply take_append_of_le_length
    have hle : exFam.start_ ≤ exFam.extents_.length := hstart.le
    rw [length_append, length_take, hcount]
    split_ifs
    omega
  · have hgrow : exFam.grow addSiz = { exFam with
        extents_ := exFam.extents_ ++ List.range' exFam.slotCnt addSiz } := by
      simp [grow, isWrapped, hwrap]
    have hperm : (exFam.grow addSiz).extents_.Perm
        (exFam.extents_ ++ List.range' exFam.slotCnt addSiz) := by
      rw [hgrow]
    have hvalid : (exFam.grow addSiz).Valid := by
      refine ⟨?_, ?_, ?_⟩
      · rw [hlen, hgrow]
        show exFam.start_ < exFam.slotCnt + addSiz
        omega
      · rw [hlen, hgrow]
        show exFam.after_ < exFam.slotCnt + addSiz
        omega
      · rw [hlen]
        exact hperm.trans hnames
    have hcount' : (exFam.grow addSiz).activeSlotCnt = exFam.activeSlotCnt := by
      rw [activeSlotCnt_eq, hgrow, hcount]
      show (if exFam.after_ < exFam.start_ then _ else _) = _
      split_ifs
      rfl
    refine ⟨hvalid, hcount', ?_, hperm⟩
    rw [active, hcount', hgrow]
    show ((exFam.extents_ ++ List.range' exFam.slotCnt addSiz).rotate exFam.start_).take _ = _
    have hle : exFam.start_ ≤ exFam.extents_.length := hstart.le
    have hshort : exFam.activeSlotCnt ≤ (exFam.extents_.drop exFam.start_).length := by
      rw [hcount]
      split_ifs
      omega
    rw [rotate_eq_drop_append_take (by rw [length_append]; omega),
      drop_append_of_le_length hle, append_assoc, take_append_of_le_length hshort,
      active, hsplit, take_append_of_le_length hshort]

/-- The pool can provide the extents, possibly by allocating more of them. -/
def Fits (exFam : ExtentFamily) (cnt : Nat) : Prop :=
  exFam.canAccomodate cnt ∨ (exFam.slotCnt + (cnt - exFam.freeSlotCnt + EXCESS_ALLOC))
    * exFam.sizeofExtent ≤ ALLOC_SAFETY_LIMIT

theorem grow_canAccomodate (h : exFam.Valid) :
    (exFam.grow (cnt - exFam.freeSlotCnt + EXCESS_ALLOC)).canAccomodate cnt := by
  have hlt := activeSlotCnt_lt h
  obtain ⟨-, hcount, -, -⟩ := grow_active h (cnt - exFam.freeSlotCnt + EXCESS_ALLOC)
  apply decide_eq_true
  rw [freeSlotCnt, hcount, grow_slotCnt exFam h, freeSlotCnt, EXCESS_ALLOC]
  omega

/-- Opening succeeds as long as there is memory within the safety limit. -/
theorem openNew_of_fits (h : exFam.Valid) (hfits : exFam.Fits cnt) :
    ∃ exFam', exFam.openNew cnt true = some exFam' := by
  by_cases hcan : exFam.canAccomodate cnt
  · exact ⟨_, by rw [openNew, if_pos hcan]⟩
  · have hlimit := hfits.resolve_left hcan
    have hresult : exFam.openNew cnt true
        = some { exFam.grow (cnt - exFam.freeSlotCnt + EXCESS_ALLOC) with
          after_ := (exFam.grow (cnt - exFam.freeSlotCnt + EXCESS_ALLOC)).incWrap
            (exFam.grow (cnt - exFam.freeSlotCnt + EXCESS_ALLOC)).after_ cnt } := by
      rw [openNew, if_neg hcan, if_neg (by simpa using hlimit), if_pos (grow_canAccomodate h)]
    exact ⟨_, hresult⟩

/-- What opening new extents achieves. -/
structure Opened (cnt : Nat) (exFam exFam' : ExtentFamily) : Prop where
  valid : exFam'.Valid
  count : exFam'.activeSlotCnt = exFam.activeSlotCnt + cnt
  appended : ∃ unused, exFam'.active = exFam.active ++ unused ∧ unused.length = cnt
  kept : ∀ extent ∈ exFam.extents_, extent ∈ exFam'.extents_
  slotCnt_le : exFam.slotCnt ≤ exFam'.slotCnt
  posIdx_moved : ∀ pos ≤ exFam.activeSlotCnt, exFam'.posIdx pos =
    if exFam.posIdx pos ≥ exFam.start_ then exFam.posIdx pos + (exFam'.start_ - exFam.start_)
    else exFam.posIdx pos

theorem Opened.of_bump (h : exFam.Valid) (hcan : exFam.canAccomodate cnt) :
    Opened cnt exFam { exFam with after_ := exFam.incWrap exFam.after_ cnt } := by
  obtain ⟨hvalid, hcount, hactive⟩ := bump_active h hcan
  refine ⟨hvalid, hcount, ⟨_, hactive, ?_⟩, fun _ h => h, le_refl _, ?_⟩
  · have hlen := length_active hvalid
    rw [hactive, length_append, length_active h] at hlen
    omega
  · intro pos _
    show exFam.posIdx pos = if exFam.posIdx pos ≥ exFam.start_
      then exFam.posIdx pos + (exFam.start_ - exFam.start_) else exFam.posIdx pos
    split_ifs <;> omega

theorem grow_posIdx (h : exFam.Valid) (addSiz : Nat) (hpos : pos ≤ exFam.activeSlotCnt) :
    (exFam.grow addSiz).posIdx pos = if exFam.posIdx pos ≥ exFam.start_
      then exFam.posIdx pos + ((exFam.grow addSiz).start_ - exFam.start_)
      else exFam.posIdx pos := by
  have hafter := h.after_lt
  have hlt := activeSlotCnt_lt h
  have hcount := activeSlotCnt_eq exFam
  have hlen := grow_slotCnt exFam h addSiz
  have hmoved : (exFam.grow addSiz).start_
      = if exFam.after_ < exFam.start_ then exFam.start_ + addSiz else exFam.start_ := by
    by_cases hwrap : exFam.after_ < exFam.start_
    · simp [grow, isWrapped, hwrap]
    · simp [grow, isWrapped, hwrap]
  rw [posIdx_eq (grow_active h addSiz).1 (by omega), posIdx_eq h (by omega), hmoved]
  split_ifs at hcount ⊢ <;> omega

/-- Opening appends unused extents to the queue, and keeps all the others in their order. -/
theorem openNew_opened (h : exFam.Valid) {memory : Bool} (hopen : exFam.openNew cnt memory = some exFam') :
    Opened cnt exFam exFam' := by
  by_cases hcan : exFam.canAccomodate cnt
  · rw [openNew, if_pos hcan, Option.some.injEq] at hopen
    subst hopen
    exact .of_bump h hcan
  · rw [openNew, if_neg hcan, Option.ite_none_left_eq_some] at hopen
    obtain ⟨-, hopen⟩ := hopen
    rw [if_pos (grow_canAccomodate h), Option.some.injEq] at hopen
    obtain ⟨hgrown, hcount, hactive, hperm⟩ :=
      grow_active h (cnt - exFam.freeSlotCnt + EXCESS_ALLOC)
    have hbump := Opened.of_bump hgrown (grow_canAccomodate h)
    rw [hopen] at hbump
    have hstart : exFam'.start_ = (exFam.grow (cnt - exFam.freeSlotCnt + EXCESS_ALLOC)).start_ := by
      rw [← hopen]
    refine ⟨hbump.valid, ?_, ?_, ?_, ?_, ?_⟩
    · rw [hbump.count, hcount]
    · obtain ⟨unused, happ, hlen⟩ := hbump.appended
      exact ⟨unused, by rw [happ, hactive], hlen⟩
    · intro extent hmem
      exact hbump.kept extent (hperm.mem_iff.mpr (mem_append_left _ hmem))
    · have hlen := grow_slotCnt exFam h (cnt - exFam.freeSlotCnt + EXCESS_ALLOC)
      have hle := hbump.slotCnt_le
      omega
    · intro pos hpos
      have hmoved := hbump.posIdx_moved pos (by omega)
      have hself : exFam'.posIdx pos
          = (exFam.grow (cnt - exFam.freeSlotCnt + EXCESS_ALLOC)).posIdx pos := by
        rw [hmoved]
        split_ifs <;> omega
      rw [hself, hstart, grow_posIdx h _ hpos]

/-- **An iterator used to expand** is moved along with its position in the queue; from the end it
comes to the first of the new extents. -/
theorem expandAlloc_posIdx (h : exFam.Valid) {memory : Bool} (hpos : pos ≤ exFam.activeSlotCnt) (hcnt : 0 < cnt)
    (hopen : exFam.openNew cnt memory = some exFam') :
    exFam.expandAlloc (exFam.posIdx pos) cnt memory = some (exFam'.posIdx pos, exFam') := by
  have hopened := openNew_opened h hopen
  have hlt := activeSlotCnt_lt hopened.valid
  have hcount := hopened.count
  have hinside : exFam'.isValidPos (exFam'.posIdx pos) := by
    rw [isValidPos_posIdx hopened.valid (by omega), decide_eq_true_eq]
    omega
  rw [expandAlloc, hopen, Option.bind_some]
  simp only [← hopened.posIdx_moved pos hpos, hinside, ite_true]

/-! ## Re-validation of an iterator -/

theorem matchPos_iff (h : exFam.Valid) {index target i : Nat} (htarget : exFam.extents_[index]? = some target) :
    exFam.matchPos i target ↔ i = index := by
  rw [matchPos, decide_eq_true_eq]
  constructor
  · intro hi
    obtain ⟨hlt, hget⟩ := List.getElem?_eq_some_iff.mp hi
    obtain ⟨hlt', hget'⟩ := List.getElem?_eq_some_iff.mp htarget
    exact (extents_nodup h).getElem_inj_iff.mp (hget.trans hget'.symm)
  · rintro rfl
    exact htarget

/-- The search proceeds step by step, and meets the target before it is back at its start. -/
theorem searchTarget_spec (h : exFam.Valid) {index target goal : Nat}
    (hindex : index < exFam.slotCnt) (htarget : exFam.extents_[goal]? = some target)
    {distance : Nat} (hdist : distance < exFam.slotCnt)
    (hgoal : exFam.incWrap index distance = goal) (fuel steps : Nat) (hsteps : steps < distance)
    (hfuel : distance ≤ steps + fuel) :
    exFam.searchTarget target index fuel (exFam.incWrap index steps) = some goal := by
  have hwrap : ∀ k < exFam.slotCnt, exFam.incWrap index k =
      if index + k < exFam.slotCnt then index + k else index + k - exFam.slotCnt := by
    intro k hk
    split_ifs with hlt
    · exact Nat.mod_eq_of_lt hlt
    · exact mod_once (by omega) (by omega)
  induction fuel generalizing steps with
  | zero => omega
  | succ fuel ih =>
    have hnext : exFam.iterNext (exFam.incWrap index steps) = exFam.incWrap index (steps + 1) := by
      rw [iterNext, incWrap, incWrap, incWrap, Nat.mod_add_mod, Nat.add_assoc]
    rw [searchTarget]
    simp only [hnext]
    by_cases hfound : steps + 1 = distance
    · rw [hfound, hgoal, if_pos ((matchPos_iff h htarget).mpr rfl)]
    · have hother : ¬ exFam.matchPos (exFam.incWrap index (steps + 1)) target := by
        rw [matchPos_iff h htarget, ← hgoal, hwrap _ (by omega), hwrap _ hdist]
        split_ifs <;> omega
      have hahead : exFam.incWrap index (steps + 1) ≠ index := by
        rw [hwrap _ (by omega)]
        split_ifs <;> omega
      rw [if_neg hother, if_pos hahead]
      exact ih (steps + 1) (by omega) (by omega)

/-- Re-validation finds the extent, wherever it was moved. -/
theorem validatePos_spec (h : exFam.Valid) {index target : Nat} (hindex : index < exFam.slotCnt)
    (htarget : target ∈ exFam.extents_) : ∃ index', exFam.validatePos index target = some index' ∧
    exFam.extents_[index']? = some target := by
  obtain ⟨goal, hlt, hget⟩ := mem_iff_getElem.mp htarget
  have hgoal : exFam.extents_[goal]? = some target := List.getElem?_eq_some_iff.mpr ⟨hlt, hget⟩
  have hlt : goal < exFam.slotCnt := hlt
  refine ⟨goal, ?_, hgoal⟩
  rw [validatePos]
  by_cases hmatch : exFam.matchPos index target
  · rw [if_pos hmatch, (matchPos_iff h hgoal).mp hmatch]
  · have hne : index ≠ goal := fun heq => hmatch ((matchPos_iff h hgoal).mpr heq)
    have hstay : exFam.incWrap index 0 = index := Nat.mod_eq_of_lt hindex
    have hdistance : exFam.incWrap index ((goal + exFam.slotCnt - index) % exFam.slotCnt) = goal := by
      rw [incWrap, Nat.add_mod_mod]
      have hsum : index + (goal + exFam.slotCnt - index) = goal + exFam.slotCnt := by omega
      rw [hsum, Nat.add_mod_right, Nat.mod_eq_of_lt hlt]
    have hpositive : 0 < (goal + exFam.slotCnt - index) % exFam.slotCnt := by
      rcases Nat.eq_zero_or_pos ((goal + exFam.slotCnt - index) % exFam.slotCnt) with hzero | hpos
      · rw [hzero, hstay] at hdistance
        exact absurd hdistance hne
      · exact hpos
    have hbound : (goal + exFam.slotCnt - index) % exFam.slotCnt < exFam.slotCnt :=
      Nat.mod_lt _ (by omega)
    have hsearch := searchTarget_spec h hindex hgoal hbound hdistance exFam.slotCnt 0
      hpositive (by omega)
    rw [hstay] at hsearch
    rw [if_neg hmatch, hsearch]

/-! ## Runs of the pool -/

theorem initial_valid {sizeofExtent initialCnt : Nat} (hcnt : 0 < initialCnt) :
    (initial sizeofExtent initialCnt).Valid := by
  have hlen : (initial sizeofExtent initialCnt).slotCnt = initialCnt := length_range
  refine ⟨by rw [hlen]; exact hcnt, by rw [hlen]; exact hcnt, ?_⟩
  rw [hlen]
  exact List.Perm.refl _

theorem perform_valid (h : exFam.Valid) {call : Call} (hstep : perform exFam call = some exFam') : exFam'.Valid ∧
    exFam.slotCnt ≤ exFam'.slotCnt ∧ ∀ extent ∈ exFam.extents_, extent ∈ exFam'.extents_ := by
  cases call with
  | openNew cnt memory =>
    have hopened := openNew_opened h hstep
    exact ⟨hopened.valid, hopened.slotCnt_le, hopened.kept⟩
  | dropOld cnt =>
    have hext := (dropOld_active h hstep).2
    refine ⟨dropOld_valid h hstep, by rw [slotCnt, slotCnt, hext], ?_⟩
    intro extent hmem
    rwa [hext]

theorem perform_queue (h : exFam.Valid) {call : Call} (hstep : perform exFam call = some exFam') :
    QueueStep exFam.active call exFam'.active := by
  cases call with
  | openNew cnt memory =>
    have hopened := openNew_opened h hstep
    obtain ⟨unused, happ, hlen⟩ := hopened.appended
    have hnodup := active_nodup hopened.valid
    rw [happ] at hnodup ⊢
    obtain ⟨-, hunused, hdisjoint⟩ := nodup_append'.mp hnodup
    exact .appended cnt memory unused hlen hunused fun extent hmem hold => hdisjoint hold hmem
  | dropOld cnt =>
    have hle : cnt ≤ exFam.activeSlotCnt := by
      by_contra hgt
      simp [perform, dropOld, hgt] at hstep
    rw [(dropOld_active h hstep).1]
    exact .removed cnt (by rwa [length_active h])

theorem invariant_valid : machine.Invariant Valid where
  init := by
    rintro exFam ⟨sizeofExtent, initialCnt, hcnt, rfl⟩
    exact initial_valid hcnt
  step _ _ _ h hstep := (perform_valid h hstep).1

theorem run_kept {calls : List Call} (hrun : machine.Run exFam calls exFam') (h : exFam.Valid) : exFam'.Valid ∧
    exFam.slotCnt ≤ exFam'.slotCnt ∧ ∀ extent ∈ exFam.extents_, extent ∈ exFam'.extents_ := by
  induction hrun with
  | nil exFam => exact ⟨h, le_refl _, fun _ hmem => hmem⟩
  | cons hstep _ ih =>
    obtain ⟨h', hle, hkept⟩ := perform_valid h hstep
    obtain ⟨hvalid, hle', hkept'⟩ := ih h'
    exact ⟨hvalid, hle.trans hle', fun extent hmem => hkept' extent (hkept extent hmem)⟩

/-- **The pool represents a queue of extents**: this is the queue seen by iterating; the operations
do to it what they should, and an iterator finds its extent again after any further operations. -/
structure RefinesQueue (exFam : ExtentFamily) (queue : List Nat) : Prop where
  iterated : exFam.eachExtent = some queue
  indices_lt : exFam.start_ < exFam.slotCnt ∧ exFam.after_ < exFam.slotCnt
  active_lt : queue.length = exFam.activeSlotCnt ∧ exFam.activeSlotCnt < exFam.slotCnt
  simulated : ∀ call exFam', perform exFam call = some exFam' →
    ∃ queue', exFam'.eachExtent = some queue' ∧ QueueStep queue call queue'
  opens : ∀ cnt, exFam.Fits cnt → ∃ exFam', perform exFam (.openNew cnt true) = some exFam'
  drops : ∀ cnt ≤ queue.length, ∃ exFam', perform exFam (.dropOld cnt) = some exFam'
  revalidated : ∀ index extent calls exFam', exFam.extents_[index]? = some extent →
    machine.Run exFam calls exFam' → ∃ index', exFam'.validatePos index extent = some index' ∧
      exFam'.extents_[index']? = some extent
  expanded : ∀ pos ≤ queue.length, ∀ cnt memory exFam', 0 < cnt →
    exFam.openNew cnt memory = some exFam' → ∃ index',
      exFam.expandAlloc (exFam.posIdx pos) cnt memory = some (index', exFam') ∧
      ∃ queue', exFam'.eachExtent = some queue' ∧ exFam'.extents_[index']? = queue'[pos]?

/-- **Refinement**: in every state reached, the extents seen by iterating from `begin()` to `end()`
are the queue. -/
theorem refines_queue (exFam : ExtentFamily) (hreach : machine.Reachable exFam) :
    ∃ queue, RefinesQueue exFam queue := by
  have h := invariant_valid.reachable hreach
  have hlen := length_active h
  refine ⟨exFam.active, eachExtent_eq h, ⟨h.start_lt, h.after_lt⟩, ⟨hlen, activeSlotCnt_lt h⟩,
    ?_, ?_, ?_, ?_, ?_⟩
  · intro call exFam' hstep
    exact ⟨exFam'.active, eachExtent_eq (perform_valid h hstep).1, perform_queue h hstep⟩
  · intro cnt hfits
    exact openNew_of_fits h hfits
  · intro cnt hcnt
    exact ⟨_, if_pos (by omega)⟩
  · intro index extent calls exFam' hget hrun
    obtain ⟨h', hle, hkept⟩ := run_kept hrun h
    obtain ⟨hlt, -⟩ := List.getElem?_eq_some_iff.mp hget
    exact validatePos_spec h' (lt_of_lt_of_le hlt hle) (hkept extent (mem_of_getElem? hget))
  · intro pos hpos cnt memory exFam' hcnt hopen
    have hopened := openNew_opened h hopen
    have hcount := hopened.count
    refine ⟨_, expandAlloc_posIdx h (by omega) hcnt hopen, _, eachExtent_eq hopened.valid, ?_⟩
    exact extents_posIdx_active hopened.valid (by omega)

/-- Operations which wrap around and then grow the pool in this state. -/
def exampleCalls : List Call :=
  [.openNew 2 true, .openNew 4 true, .dropOld 4, .openNew 3 true, .openNew 7 true]

theorem refines_queue_wrapped : ∃ exFam, machine.Reachable exFam ∧
    exFam.eachExtent = some [4, 5, 6, 0, 1, 2, 3, 7, 8, 9, 10, 11] ∧
    ∃ queue, RefinesQueue exFam queue := by
  obtain ⟨exFam, hrun, hqueue⟩ : ∃ exFam, Machine.exec perform (initial 3200 1) exampleCalls
      = some exFam ∧
      exFam.eachExtent = some [4, 5, 6, 0, 1, 2, 3, 7, 8, 9, 10, 11] := by
    exact ⟨_, rfl, by decide⟩
  have hcalls : (Machine.ofFun (initial 3200 1) perform).Run (initial 3200 1) exampleCalls exFam :=
    Machine.run_ofFun_iff.mpr hrun
  have hsteps : ∀ s call t, (Machine.ofFun (initial 3200 1) perform).step s call t →
      machine.step s call t := fun _ _ _ h => h
  have hreach : machine.Reachable exFam :=
    ⟨initial 3200 1, exampleCalls, ⟨3200, 1, by decide, rfl⟩, hcalls.mono hsteps⟩
  exact ⟨exFam, hreach, hqueue, refines_queue exFam hreach⟩

end ExtentFamily

end Lumiera.Vault.Mem
