import Mathlib.Data.List.Nodup
import Mathlib.Data.List.TakeDrop
import Lumiera.Lib.Diff.ListDiffApplication

/-! # Snapshot and lookup table (`lib/diff/index-table.hpp`)

An `IndexTable` captures a sequence together with a map from each element to its position. The
constructor runs through the source sequence and rejects duplicates, so that the map is the exact
inverse of the data; here this is a field of the structure, and a table with a duplicate element
or a stale index cannot be built. -/

namespace Lumiera.Lib.Diff

open List

universe u

variable {V : Type u} [DecidableEq V]

/-- Data snapshot plus the position of each element. -/
structure IndexTable (V : Type u) where
  /-- The captured sequence (`data_`). -/
  data : List V
  /-- The position map (`idx_`). -/
  idx : V → Option Nat
  /-- The map is the inverse of the data. -/
  indexed : ∀ v i, idx v = some i ↔ data[i]? = some v

namespace IndexTable

/-- The table of the empty sequence. -/
def empty : IndexTable V where
  data := []
  idx _ := none
  indexed := by simp

/-- Body of the constructor's loop: append an element that is not yet indexed. -/
def push (t : IndexTable V) (elm : V) (hnew : t.idx elm = none) : IndexTable V where
  data := t.data ++ [elm]
  idx := Function.update t.idx elm (some t.data.length)
  indexed v i := by
    by_cases hv : v = elm
    · subst hv
      have hfresh : ∀ k, t.data[k]? ≠ some v := fun k hk => by
        have hidx := (t.indexed v k).mpr hk
        simp [hnew] at hidx
      rw [Function.update_self, getElem?_append]
      split
      · next hlt =>
          constructor
          · rintro ⟨⟩; exact absurd hlt (Nat.lt_irrefl _)
          · intro hk; exact absurd hk (hfresh i)
      · next hge =>
          simp only [Option.some.injEq, getElem?_singleton]
          split <;> simp <;> omega
    · rw [Function.update_of_ne hv, t.indexed, getElem?_append]
      split
      · rfl
      · next hge =>
          rw [getElem?_eq_none (by omega), getElem?_singleton]
          split <;> simp [Ne.symm hv]

/-- Loop of the constructor: `none` stands for the error raised by `__rejectDuplicate`. -/
def pushAll (t : IndexTable V) : List V → Option (IndexTable V)
  | [] => some t
  | elm :: seq =>
    match hidx : t.idx elm with
    | some _ => none
    | none => pushAll (t.push elm hidx) seq

/-- Capture a snapshot of the given sequence; fails on duplicate elements. -/
def ofSeq (seq : List V) : Option (IndexTable V) := pushAll empty seq

/-- Number of captured elements. -/
def size (t : IndexTable V) : Nat := t.data.length

/-- Position of the element, or `size` if the element is not in the table. -/
def pos (t : IndexTable V) (elm : V) : Nat := (t.idx elm).getD t.size

/-- Is the element part of the snapshot? -/
def contains (t : IndexTable V) (elm : V) : Bool := t.pos elm != t.size

variable {t : IndexTable V}

omit [DecidableEq V] in
theorem pos_eq_of_getElem? {v : V} {i : Nat} (h : t.data[i]? = some v) : t.pos v = i := by
  rw [pos, (t.indexed v i).mpr h, Option.getD_some]

omit [DecidableEq V] in
theorem nodup (t : IndexTable V) : t.data.Nodup := by
  rw [nodup_iff_injective_get]
  intro i j hij
  have hi : t.data[(i : Nat)]? = some (t.data.get i) := by simp
  have hj : t.data[(j : Nat)]? = some (t.data.get i) := by rw [hij]; simp
  exact Fin.ext ((pos_eq_of_getElem? hi).symm.trans (pos_eq_of_getElem? hj))

omit [DecidableEq V] in
theorem getElem?_pos {v : V} (h : v ∈ t.data) : t.data[t.pos v]? = some v := by
  obtain ⟨i, hi⟩ := mem_iff_getElem?.mp h
  rw [pos_eq_of_getElem? hi, hi]

omit [DecidableEq V] in
theorem pos_lt_size_iff {v : V} : t.pos v < t.size ↔ v ∈ t.data := by
  constructor
  · intro h
    cases hidx : t.idx v with
    | none => simp [pos, hidx] at h
    | some i => exact mem_of_getElem? ((t.indexed v i).mp hidx)
  · intro h
    exact (List.getElem?_eq_some_iff.mp (getElem?_pos h)).1

omit [DecidableEq V] in
theorem contains_iff {v : V} : t.contains v = true ↔ v ∈ t.data := by
  rw [contains, bne_iff_ne, ← pos_lt_size_iff]
  constructor
  · intro hne
    refine Nat.lt_of_le_of_ne ?_ hne
    cases hidx : t.idx v with
    | none => simp [pos, hidx]
    | some i =>
      have hi := (List.getElem?_eq_some_iff.mp ((t.indexed v i).mp hidx)).1
      simpa [pos, hidx, size] using Nat.le_of_lt hi
  · exact fun hlt => Nat.ne_of_lt hlt

theorem exists_pushAll {seq : List V} (hseq : seq.Nodup) (t : IndexTable V)
    (hnew : ∀ v ∈ seq, v ∉ t.data) : ∃ t', t.pushAll seq = some t' ∧ t'.data = t.data ++ seq := by
  induction seq generalizing t with
  | nil => exact ⟨t, rfl, by simp⟩
  | cons elm seq ih =>
    obtain ⟨helm, hrest⟩ := nodup_cons.mp hseq
    have hnone : t.idx elm = none := by
      cases hidx : t.idx elm with
      | none => rfl
      | some i =>
        exact absurd (mem_of_getElem? ((t.indexed elm i).mp hidx))
          (hnew elm mem_cons_self)
    obtain ⟨t', hload, hdata⟩ := ih hrest (t.push elm hnone) (by
      intro v hv hmem
      rcases mem_append.mp hmem with hold | hlast
      · exact hnew v (mem_cons_of_mem _ hv) hold
      · rw [mem_singleton.mp hlast] at hv
        exact helm hv)
    refine ⟨t', ?_, by simp [hdata, push]⟩
    rw [pushAll]
    split
    · next i hidx => rw [hnone] at hidx; cases hidx
    · exact hload

/-- Every duplicate-free sequence can be captured, and is captured as given. -/
theorem exists_ofSeq {seq : List V} (hseq : seq.Nodup) : ∃ t, ofSeq seq = some t ∧ t.data = seq := by
  obtain ⟨t, hload, hdata⟩ := exists_pushAll hseq empty (by simp [empty])
  exact ⟨t, hload, by simpa [empty] using hdata⟩

end IndexTable

/-! ## Generating a list diff (`lib/diff/list-diff-detector.hpp`)

A `DiffDetector` keeps a snapshot of the monitored sequence. `pullUpdate` takes a snapshot of the
current state, which becomes the new reference point, and hands out a `DiffFrame`: a cursor on the
old and one on the new snapshot, from which the steps of the diff are generated on demand. -/

/-- State frame for diff detection and generation. -/
structure DiffFrame (V : Type u) where
  /-- The reference point (`old_`). -/
  old : IndexTable V
  /-- The current snapshot (`new_`). -/
  new : IndexTable V
  /-- Cursor on the old sequence. -/
  oldHead : Nat
  /-- Cursor on the new sequence. -/
  newHead : Nat

namespace DiffFrame

/-- Is there a further element in the old sequence? -/
def hasOld (f : DiffFrame V) : Prop := f.oldHead < f.old.size

/-- Is there a further element in the new sequence? -/
def hasNew (f : DiffFrame V) : Prop := f.newHead < f.new.size

instance (f : DiffFrame V) : Decidable f.hasOld := Nat.decLt _ _

instance (f : DiffFrame V) : Decidable f.hasNew := Nat.decLt _ _

/-- The element at the cursor of the old sequence. -/
def oldElm (f : DiffFrame V) (h : f.hasOld) : V := f.old.data.get ⟨f.oldHead, h⟩

/-- The element at the cursor of the new sequence. -/
def newElm (f : DiffFrame V) (h : f.hasNew) : V := f.new.data.get ⟨f.newHead, h⟩

/-- Move on to the next element of the old sequence. -/
def consumeOld (f : DiffFrame V) : DiffFrame V := { f with oldHead := f.oldHead + 1 }

/-- Move on to the next element of the new sequence. -/
def consumeNew (f : DiffFrame V) : DiffFrame V := { f with newHead := f.newHead + 1 }

/-- Both sequences continue with the same element. -/
def canPick (f : DiffFrame V) : Prop := ∃ (ho : f.hasOld) (hn : f.hasNew), f.oldElm ho = f.newElm hn

/-- The next old element is not present any more. -/
def canDelete (f : DiffFrame V) : Prop := ∃ ho : f.hasOld, ¬ f.new.contains (f.oldElm ho)

/-- The next new element was not present before. -/
def canInsert (f : DiffFrame V) : Prop := ∃ hn : f.hasNew, ¬ f.old.contains (f.newElm hn)

/-- The next new element sits further down in the old sequence. -/
def needFetch (f : DiffFrame V) : Prop := ∃ hn : f.hasNew, f.oldHead < f.old.pos (f.newElm hn)

/-- The next old element was fetched earlier. -/
def obsoleted (f : DiffFrame V) : Prop := ∃ ho : f.hasOld, f.newHead > f.new.pos (f.oldElm ho)

instance (f : DiffFrame V) : Decidable f.canPick := inferInstanceAs (Decidable (∃ _ _, _ = _))
instance (f : DiffFrame V) : Decidable f.canDelete := inferInstanceAs (Decidable (∃ _, ¬ _))
instance (f : DiffFrame V) : Decidable f.canInsert := inferInstanceAs (Decidable (∃ _, ¬ _))
instance (f : DiffFrame V) : Decidable f.needFetch := inferInstanceAs (Decidable (∃ _, _ < _))
instance (f : DiffFrame V) : Decidable f.obsoleted := inferInstanceAs (Decidable (∃ _, _ > _))

/-- The next step of the diff and the frame after it; `none` stands for the marker `NIL`. -/
def establishNextState (f : DiffFrame V) : Option (DiffStep V × DiffFrame V) :=
  if h : f.canPick then
    some (.pick (f.newElm h.snd.fst), f.consumeOld.consumeNew)
  else if h : f.canDelete then
    some (.del (f.oldElm h.fst), f.consumeOld)
  else if h : f.canInsert then
    some (.ins (f.newElm h.fst), f.consumeNew)
  else if h : f.needFetch then
    some (.find (f.newElm h.fst), f.consumeNew)
  else if h : f.obsoleted then
    some (.skip (f.oldElm h.fst), f.consumeOld)
  else
    none

/-- Number of elements not yet passed by the cursors. -/
def remaining (f : DiffFrame V) : Nat := (f.old.size - f.oldHead) + (f.new.size - f.newHead)

/-- **What a step can be.** Each verb is generated in one situation, and moves the cursors past the
elements it accounts for. -/
inductive Step (f : DiffFrame V) : DiffStep V → DiffFrame V → Prop
  | pick (ho : f.hasOld) (hn : f.hasNew) (heq : f.oldElm ho = f.newElm hn) :
      Step f (.pick (f.newElm hn)) f.consumeOld.consumeNew
  | del (ho : f.hasOld) (hout : f.oldElm ho ∉ f.new.data) :
      Step f (.del (f.oldElm ho)) f.consumeOld
  | ins (hn : f.hasNew) (hout : f.newElm hn ∉ f.old.data) :
      Step f (.ins (f.newElm hn)) f.consumeNew
  | find (hn : f.hasNew) (hin : f.newElm hn ∈ f.old.data)
      (hpos : f.oldHead < f.old.pos (f.newElm hn)) : Step f (.find (f.newElm hn)) f.consumeNew
  | skip (ho : f.hasOld) (hin : f.oldElm ho ∈ f.new.data)
      (hpos : f.new.pos (f.oldElm ho) < f.newHead) : Step f (.skip (f.oldElm ho)) f.consumeOld

variable {f f' : DiffFrame V} {step : DiffStep V}

theorem establishNextState_step (h : f.establishNextState = some (step, f')) : Step f step f' := by
  unfold establishNextState at h
  by_cases hpick : f.canPick
  · obtain ⟨ho, hn, heq⟩ := hpick
    rw [dif_pos ⟨ho, hn, heq⟩] at h
    cases h
    exact .pick ho hn heq
  rw [dif_neg hpick] at h
  by_cases hdel : f.canDelete
  · rw [dif_pos hdel] at h
    cases h
    exact .del _ fun hin => hdel.snd (IndexTable.contains_iff.mpr hin)
  rw [dif_neg hdel] at h
  by_cases hins : f.canInsert
  · rw [dif_pos hins] at h
    cases h
    exact .ins _ fun hin => hins.snd (IndexTable.contains_iff.mpr hin)
  rw [dif_neg hins] at h
  by_cases hfetch : f.needFetch
  · rw [dif_pos hfetch] at h
    cases h
    refine .find _ ?_ hfetch.snd
    by_contra hout
    exact hins ⟨hfetch.fst, fun hc => hout (IndexTable.contains_iff.mp hc)⟩
  rw [dif_neg hfetch] at h
  by_cases hskip : f.obsoleted
  · rw [dif_pos hskip] at h
    cases h
    refine .skip _ ?_ hskip.snd
    by_contra hout
    exact hdel ⟨hskip.fst, fun hc => hout (IndexTable.contains_iff.mp hc)⟩
  · rw [dif_neg hskip] at h
    cases h

omit [DecidableEq V] in
theorem Step.remaining_lt (h : Step f step f') : f'.remaining < f.remaining := by
  have hold (ho : f.oldHead < f.old.size) : f.consumeOld.remaining < f.remaining := by
    simp only [remaining, consumeOld]
    omega
  have hnew (hn : f.newHead < f.new.size) : f.consumeNew.remaining < f.remaining := by
    simp only [remaining, consumeNew]
    omega
  cases h with
  | pick ho hn =>
    refine Nat.lt_of_le_of_lt ?_ (hold ho)
    simp only [remaining, consumeNew]
    omega
  | del ho => exact hold ho
  | ins hn => exact hnew hn
  | find hn => exact hnew hn
  | skip ho => exact hold ho

/-- The whole diff: the steps pulled from the frame until it is exhausted. -/
def steps (f : DiffFrame V) : List (DiffStep V) :=
  match _h : f.establishNextState with
  | none => []
  | some (step, f') => step :: f'.steps
termination_by f.remaining
decreasing_by exact (establishNextState_step ‹_›).remaining_lt

theorem steps_of_none (h : f.establishNextState = none) : f.steps = [] := by
  rw [steps]
  split
  · rfl
  · next heq => rw [h] at heq; cases heq

theorem steps_of_some (h : f.establishNextState = some (step, f')) : f.steps = step :: f'.steps := by
  rw [steps]
  split
  · next heq => rw [h] at heq; cases heq
  · next heq => rw [h] at heq; cases heq; rfl

end DiffFrame

/-! ## The detector -/

/-- The detector, with the snapshot `refIdx_` taken most recently. -/
structure DiffDetector (V : Type u) where
  refIdx : IndexTable V

namespace DiffDetector

/-- Start monitoring a sequence; fails on duplicate elements. -/
def create (refSeq : List V) : Option (DiffDetector V) := (IndexTable.ofSeq refSeq).map .mk

/-- Take a snapshot of the current data and yield the diff leading to it from the previous
snapshot; fails on duplicate elements. -/
def pullUpdate (d : DiffDetector V) (currentData : List V) :
    Option (List (DiffStep V) × DiffDetector V) := do
  let mark ← IndexTable.ofSeq currentData
  return (DiffFrame.steps ⟨d.refIdx, mark, 0, 0⟩, ⟨mark⟩)

/-- The loop of `isChanged`: what lies ahead of the iterator into the snapshot, and the elements
still to be visited. -/
def changedFrom : List V → List V → Bool
  | _, [] => false
  -- The end of the snapshot stops the comparison, yet not the loop.
  | [], _ :: currentData => changedFrom [] currentData
  | seen :: snapshot, elm :: currentData => if elm ≠ seen then true else changedFrom snapshot currentData

/-- Does the current data differ from the last snapshot? -/
def isChanged (d : DiffDetector V) (currentData : List V) : Bool := changedFrom d.refIdx.data currentData

theorem create_of_ofSeq {refSeq : List V} {t : IndexTable V}
    (h : IndexTable.ofSeq refSeq = some t) : create refSeq = some ⟨t⟩ := by
  rw [create, h]
  rfl

theorem pullUpdate_of_ofSeq (d : DiffDetector V) {currentData : List V} {t : IndexTable V}
    (h : IndexTable.ofSeq currentData = some t) :
    d.pullUpdate currentData = some (DiffFrame.steps ⟨d.refIdx, t, 0, 0⟩, ⟨t⟩) := by
  rw [pullUpdate, h]
  rfl

end DiffDetector

end Lumiera.Lib.Diff
