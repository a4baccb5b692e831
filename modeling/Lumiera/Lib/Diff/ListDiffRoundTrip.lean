import Lumiera.Base.Machine
import Lumiera.Lib.Diff.ListDiffDetector
import Mathlib.Data.List.Infix

/-! # Generated list diffs can be applied

The generator and the applicator are two state machines which never see each other. The proof
links them by an invariant: `Accounted` says what the cursors of the generator have passed, and
`InStep` says what the applicator has built and what it has left intact after consuming the steps
generated so far. One step of the generator is then matched by one step of the applicator, and
when the generator has nothing left to say, the applicator has nothing left to consume. -/

namespace Lumiera.Lib.Diff

open List

universe u

variable {V : Type u}

/-! ## The cursors of the generator -/

namespace DiffFrame

/-- **Invariant of the generator.** An old element which the cursor has passed is either not part
of the new sequence, or the other cursor has passed it there. -/
structure Accounted (f : DiffFrame V) : Prop where
  oldHead_le : f.oldHead ≤ f.old.data.length
  newHead_le : f.newHead ≤ f.new.data.length
  passed : ∀ k v, k < f.oldHead → f.old.data[k]? = some v →
    v ∈ f.new.data → v ∈ f.new.data.take f.newHead

theorem getElem?_oldHead (f : DiffFrame V) (ho : f.hasOld) :
    f.old.data[f.oldHead]? = some (f.oldElm ho) := getElem?_eq_getElem ho

theorem getElem?_newHead (f : DiffFrame V) (hn : f.hasNew) :
    f.new.data[f.newHead]? = some (f.newElm hn) := getElem?_eq_getElem hn

theorem take_newHead_succ (f : DiffFrame V) (hn : f.hasNew) :
    f.new.data.take (f.newHead + 1) = f.new.data.take f.newHead ++ [f.newElm hn] := by
  rw [take_add_one, f.getElem?_newHead hn]
  rfl

variable {f : DiffFrame V}

theorem mem_take_of_pos_lt {v : V} (hv : v ∈ f.new.data) (hpos : f.new.pos v < f.newHead) :
    v ∈ f.new.data.take f.newHead := by
  refine mem_of_getElem? (i := f.new.pos v) ?_
  rw [getElem?_take_of_lt hpos]
  exact IndexTable.getElem?_pos hv

theorem newElm_notMem_take (f : DiffFrame V) (hn : f.hasNew) : f.newElm hn ∉ f.new.data.take f.newHead := by
  have hnodup : (f.new.data.take (f.newHead + 1)).Nodup :=
    f.new.nodup.sublist (take_sublist _ _)
  rw [f.take_newHead_succ hn] at hnodup
  intro hmem
  exact (nodup_append.mp hnodup).2.2 _ hmem _ (mem_singleton_self _) rfl

theorem Accounted.start (old new : IndexTable V) : Accounted ⟨old, new, 0, 0⟩ where
  oldHead_le := Nat.zero_le _
  newHead_le := Nat.zero_le _
  passed k _ hk := absurd hk (Nat.not_lt_zero k)

theorem Accounted.consumeOld (h : f.Accounted) (ho : f.hasOld)
    (hthis : f.oldElm ho ∈ f.new.data → f.oldElm ho ∈ f.new.data.take f.newHead) :
    f.consumeOld.Accounted where
  oldHead_le := ho
  newHead_le := h.newHead_le
  passed k v hk hv hin := by
    rcases Nat.lt_succ_iff_lt_or_eq.mp hk with hlt | rfl
    · exact h.passed k v hlt hv hin
    · obtain rfl : f.oldElm ho = v := Option.some.inj ((f.getElem?_oldHead ho).symm.trans hv)
      exact hthis hin

theorem Accounted.consumeNew (h : f.Accounted) (hn : f.hasNew) :
    f.consumeNew.Accounted where
  oldHead_le := h.oldHead_le
  newHead_le := hn
  passed k v hk hv hin := by
    change v ∈ f.new.data.take (f.newHead + 1)
    rw [f.take_newHead_succ hn]
    exact mem_append_left _ (h.passed k v hk hv hin)

/-- Every step of the generator accounts for what it passes. -/
theorem Accounted.step {f' : DiffFrame V} {step : DiffStep V} (h : f.Accounted) (hstep : Step f step f') :
    f'.Accounted := by
  cases hstep with
  | pick ho hn heq =>
    refine (h.consumeNew hn).consumeOld ho ?_
    intro _
    change f.oldElm ho ∈ f.new.data.take (f.newHead + 1)
    rw [f.take_newHead_succ hn, heq]
    exact mem_append_right _ (mem_singleton_self _)
  | del ho hout => exact h.consumeOld ho fun hin => absurd hin hout
  | ins hn => exact h.consumeNew hn
  | find hn => exact h.consumeNew hn
  | skip ho hin hpos => exact h.consumeOld ho fun _ => mem_take_of_pos_lt hin hpos

variable [DecidableEq V]

/-- The generator does not stop early: without a next step both sequences are exhausted. -/
theorem Accounted.exhausted (h : f.Accounted) (hnone : f.establishNextState = none) : ¬ f.hasOld ∧ ¬ f.hasNew := by
  unfold establishNextState at hnone
  split_ifs at hnone with hpick hdel hins hfetch hskip
  have hnoNew : ¬ f.hasNew := by
    intro hn
    have hin : f.newElm hn ∈ f.old.data := by
      by_contra hout
      exact hins ⟨hn, fun hc => hout (IndexTable.contains_iff.mp hc)⟩
    have hle : f.old.pos (f.newElm hn) ≤ f.oldHead := by
      by_contra hlt
      exact hfetch ⟨hn, Nat.lt_of_not_le hlt⟩
    have hpos := IndexTable.getElem?_pos hin
    rcases Nat.lt_or_eq_of_le hle with hlt | heq
    · -- passed already, hence it would have been emitted before
      exact f.newElm_notMem_take hn (h.passed _ _ hlt hpos (getElem_mem hn))
    · rw [heq] at hpos
      have ho : f.hasOld := (List.getElem?_eq_some_iff.mp hpos).1
      exact hpick ⟨ho, hn, Option.some.inj ((f.getElem?_oldHead ho).symm.trans hpos)⟩
  refine ⟨fun ho => ?_, hnoNew⟩
  have hin : f.oldElm ho ∈ f.new.data := by
    by_contra hout
    exact hdel ⟨ho, fun hc => hout (IndexTable.contains_iff.mp hc)⟩
  have hend : f.new.size ≤ f.newHead := Nat.le_of_not_lt hnoNew
  exact hskip ⟨ho, Nat.lt_of_lt_of_le (IndexTable.pos_lt_size_iff.mpr hin) hend⟩

end DiffFrame

/-! ## Generator and applicator in step -/

open DiffApplication DiffFrame

/-- **Invariant linking generator and applicator.** The applicator has built what the generator's
cursor has passed in the new sequence, and what is not yet moved out of the old content is still
found in its place. -/
structure InStep (f : DiffFrame V) (a : DiffApplication V) : Prop where
  pos_eq : a.pos = f.oldHead
  seq_eq : a.seq = f.new.data.take f.newHead
  length_eq : a.orig.length = f.old.data.length
  intact : ∀ k v, f.oldHead ≤ k → f.old.data[k]? = some v →
    v ∉ f.new.data.take f.newHead → a.orig[k]? = some v

theorem InStep.start (old new : IndexTable V) :
    InStep ⟨old, new, 0, 0⟩ (initDiffApplication old.data) where
  pos_eq := rfl
  seq_eq := rfl
  length_eq := rfl
  intact _ _ _ hv _ := hv

variable {f : DiffFrame V} {a : DiffApplication V}

theorem InStep.consumeOld (h : InStep f a) :
    InStep f.consumeOld { a with pos := a.pos + 1 } where
  pos_eq := congrArg (· + 1) h.pos_eq
  seq_eq := h.seq_eq
  length_eq := h.length_eq
  intact k v hk hv hout := h.intact k v (Nat.le_of_succ_le hk) hv hout

theorem InStep.insert (h : InStep f a) (hn : f.hasNew) :
    InStep f.consumeNew { a with seq := a.seq ++ [f.newElm hn] } where
  pos_eq := h.pos_eq
  seq_eq := by
    change a.seq ++ [f.newElm hn] = f.new.data.take (f.newHead + 1)
    rw [f.take_newHead_succ hn, h.seq_eq]
  length_eq := h.length_eq
  intact k v hk hv hout := by
    change v ∉ f.new.data.take (f.newHead + 1) at hout
    rw [f.take_newHead_succ hn] at hout
    exact h.intact k v hk hv fun hin => hout (mem_append_left _ hin)

theorem InStep.moveOut (h : InStep f a) (hn : f.hasNew)
    {m : Nat} (hm : a.orig[m]? = some (f.newElm hn)) (waste : V) :
    InStep f.consumeNew
      { a with orig := a.orig.set m waste, seq := a.seq ++ [f.newElm hn] } where
  pos_eq := (h.insert hn).pos_eq
  seq_eq := (h.insert hn).seq_eq
  length_eq := (length_set ..).trans h.length_eq
  intact k v hk hv hout := by
    have hkeep := (h.insert hn).intact k v hk hv hout
    have hne : m ≠ k := by
      rintro rfl
      obtain rfl : f.newElm hn = v := Option.some.inj (hm.symm.trans hkeep)
      apply hout
      change f.newElm hn ∈ f.new.data.take (f.newHead + 1)
      rw [f.take_newHead_succ hn]
      exact mem_append_right _ (mem_singleton_self _)
    rw [getElem?_set_ne hne]
    exact hkeep

variable [DecidableEq V]

/-- The applicator follows every step of the generator without raising an error. -/
theorem InStep.follow (husk : V → V) {f' : DiffFrame V} {step : DiffStep V} (h : InStep f a)
    (hstep : Step f step f') : ∃ a', a.applyStep husk step = .ok a' ∧ InStep f' a' := by
  have hlt (ho : f.hasOld) : a.pos < a.orig.length := by
    rw [h.pos_eq, h.length_eq]
    exact ho
  cases hstep with
  | pick ho hn heq =>
    have hhere : a.orig[a.pos]? = some (f.newElm hn) := by
      rw [h.pos_eq]
      refine h.intact _ _ (Nat.le_refl _) ?_ (f.newElm_notMem_take hn)
      rw [f.getElem?_oldHead ho, heq]
    exact ⟨_, pick_of_getElem? husk hhere, (h.moveOut hn hhere _).consumeOld⟩
  | del ho hout =>
    have hhere : a.orig[a.pos]? = some (f.oldElm ho) := by
      rw [h.pos_eq]
      exact h.intact _ _ (Nat.le_refl _) (f.getElem?_oldHead ho)
        fun hin => hout (mem_of_mem_take hin)
    exact ⟨_, del_of_getElem? hhere, h.consumeOld⟩
  | ins hn => exact ⟨_, rfl, h.insert hn⟩
  | find hn hin hpos =>
    have hthere : a.orig[f.old.pos (f.newElm hn)]? = some (f.newElm hn) :=
      h.intact _ _ (Nat.le_of_lt hpos) (IndexTable.getElem?_pos hin) (f.newElm_notMem_take hn)
    have hle : a.pos ≤ f.old.pos (f.newElm hn) := h.pos_eq ▸ Nat.le_of_lt hpos
    obtain ⟨m, -, hm, hfind⟩ := find_of_getElem? husk hle hthere
    exact ⟨_, hfind, h.moveOut hn hm _⟩
  | skip ho => exact ⟨_, skip_of_lt _ (hlt ho), h.consumeOld⟩

/-- **Run lemma**: the applicator consumes everything which the generator has to say, and ends with
the whole new sequence built and all of the old content consumed. -/
theorem InStep.applyAll_steps (husk : V → V) (h : InStep f a) (hacc : f.Accounted) :
    ∃ a', applyAll husk a f.steps = .ok a' ∧ a'.seq = f.new.data ∧ a'.pos = a'.orig.length := by
  induction hr : f.remaining using Nat.strongRecOn generalizing f a with
  | ind n ih =>
    cases hnext : f.establishNextState with
    | none =>
      obtain ⟨hnoOld, hnoNew⟩ := hacc.exhausted hnext
      refine ⟨a, by rw [steps_of_none hnext]; rfl, ?_, ?_⟩
      · rw [h.seq_eq, take_of_length_le (Nat.le_of_not_lt hnoNew)]
      · rw [h.pos_eq, h.length_eq]
        exact Nat.le_antisymm hacc.oldHead_le (Nat.le_of_not_lt hnoOld)
    | some next =>
      obtain ⟨step, f'⟩ := next
      have hstep := establishNextState_step hnext
      have hnew : f'.new = f.new := by cases hstep <;> rfl
      obtain ⟨a₁, happly, h₁⟩ := h.follow husk hstep
      obtain ⟨a', hrest, hseq, hend⟩ :=
        ih f'.remaining (hr ▸ hstep.remaining_lt) h₁ (hacc.step hstep) rfl
      refine ⟨a', ?_, hnew ▸ hseq, hend⟩
      rw [steps_of_some hnext, applyAll, happly]
      exact hrest

theorem consume_steps (husk : V → V) (old new : IndexTable V) :
    consume husk old.data (DiffFrame.steps ⟨old, new, 0, 0⟩) = .ok new.data := by
  obtain ⟨a, happly, hseq, hend⟩ :=
    (InStep.start old new).applyAll_steps husk (Accounted.start old new)
  have hnone : a.orig[a.pos]? = none := getElem?_eq_none (Nat.le_of_eq hend.symm)
  rw [consume, happly]
  change a.completeDiffApplication = _
  rw [completeDiffApplication, hnone, hseq]

/-! ## Detection without a change -/

/-- With both cursors at the same place of the same sequence, all the rest is picked. -/
theorem steps_of_unchanged (hsame : f.old.data = f.new.data) (hhead : f.oldHead = f.newHead) :
    f.steps = (f.new.data.drop f.newHead).map .pick := by
  induction hr : f.remaining using Nat.strongRecOn generalizing f with
  | ind n ih =>
    by_cases hn : f.hasNew
    · have ho : f.hasOld := by
        simp only [hasOld, IndexTable.size, hsame, hhead] at hn ⊢
        exact hn
      have heq : f.oldElm ho = f.newElm hn := by
        refine Option.some.inj ?_
        rw [← f.getElem?_oldHead ho, ← f.getElem?_newHead hn, hsame, hhead]
      have hpick : f.canPick := ⟨ho, hn, heq⟩
      have hnext : f.establishNextState = some (.pick (f.newElm hn), f.consumeOld.consumeNew) := by
        rw [establishNextState, dif_pos hpick]
      have hstep := establishNextState_step hnext
      rw [steps_of_some hnext,
        ih _ (hr ▸ hstep.remaining_lt) (f := f.consumeOld.consumeNew) hsame
          (congrArg (· + 1) hhead) rfl,
        drop_eq_getElem_cons hn]
      rfl
    · have ho : ¬ f.hasOld := by
        simp only [hasOld, IndexTable.size, hsame, hhead] at hn ⊢
        exact hn
      have hnone : f.establishNextState = none := by
        rw [establishNextState, dif_neg fun h => ho h.fst, dif_neg fun h => ho h.fst,
          dif_neg fun h => hn h.fst, dif_neg fun h => hn h.fst, dif_neg fun h => ho h.fst]
      rw [steps_of_none hnone, drop_eq_nil_of_le (Nat.le_of_not_lt hn)]
      rfl

/-! ## The round trip -/

/-- **Round trip.** Whatever a moved-from element looks like: the diff detected between two
duplicate-free sequences is applied to the old one without an error, consumes it completely and
yields the new one. Afterwards the detector's snapshot is the new sequence, and detecting again
yields one `pick` for each of its elements. -/
theorem detect_then_apply (husk : V → V) {old new : List V} (hold : old.Nodup) (hnew : new.Nodup) : ∃ d d' diff,
    DiffDetector.create old = some d ∧ d.pullUpdate new = some (diff, d') ∧ consume husk old diff = .ok new ∧
    d'.refIdx.data = new ∧ d'.pullUpdate new = some (new.map .pick, d') := by
  obtain ⟨t, ht, rfl⟩ := IndexTable.exists_ofSeq hold
  obtain ⟨t', ht', rfl⟩ := IndexTable.exists_ofSeq hnew
  refine ⟨⟨t⟩, ⟨t'⟩, _, DiffDetector.create_of_ofSeq ht, DiffDetector.pullUpdate_of_ofSeq _ ht',
    consume_steps husk t t', rfl, ?_⟩
  rw [DiffDetector.pullUpdate_of_ofSeq _ ht', steps_of_unchanged rfl rfl, drop_zero]

/-- The round trip at a reordering mixed with an insertion and a deletion. -/
theorem detect_then_apply_reordered :
    [1, 2, 3].Nodup ∧ [3, 1, 4].Nodup ∧
      ∃ d d' diff, DiffDetector.create [1, 2, 3] = some d ∧
        d.pullUpdate [3, 1, 4] = some (diff, d') ∧
        consume (fun _ => 0) [1, 2, 3] diff = .ok [3, 1, 4] ∧ d'.refIdx.data = [3, 1, 4] ∧
        d'.pullUpdate [3, 1, 4] = some ([.pick 3, .pick 1, .pick 4], d') :=
  ⟨by decide, by decide, detect_then_apply (fun _ => 0) (by decide) (by decide)⟩

/-- The diff between equal snapshots is not empty, unless the sequence is. -/
theorem second_diff_not_empty :
    ¬ ∀ old new : List Nat, old.Nodup → new.Nodup →
      ∃ d d' diff, DiffDetector.create old = some d ∧ d.pullUpdate new = some (diff, d') ∧
        consume (fun _ => 0) old diff = .ok new ∧ d'.refIdx.data = new ∧
        ∃ d'', d'.pullUpdate new = some ([], d'') := by
  intro hclaim
  obtain ⟨d, d', diff, -, hpull, -, hdata, d'', hagain⟩ := hclaim [] [1] (by decide) (by decide)
  obtain ⟨t, ht, htdata⟩ := IndexTable.exists_ofSeq (by decide : ([1] : List Nat).Nodup)
  rw [DiffDetector.pullUpdate_of_ofSeq _ ht, steps_of_unchanged (hdata.trans htdata.symm) rfl,
    htdata] at hagain
  simp at hagain

/-! ## Detecting that there is a change (`DiffDetector::isChanged`)

Whether there is a change can be asked without generating the diff. The diff tells it exactly: a
token other than `pick` occurs if and only if the sequences differ. The shortcut compares elements
at the same place only, and so it has the same answer unless one of the sequences continues the
other one. -/

/-! ## What the diff says -/

/-- **The diff tells a change**: a token other than `pick`. -/
def SaysChanged (diff : List (DiffStep V)) : Prop := ∃ step ∈ diff, step.verb ≠ .pick

namespace DiffFrame

/-- When all that remains is picked, the same remains of both sequences. -/
theorem Accounted.drop_eq_of_picks {f : DiffFrame V} (h : f.Accounted)
    (hpicks : ∀ step ∈ f.steps, step.verb = .pick) :
    f.old.data.drop f.oldHead = f.new.data.drop f.newHead := by
  induction hr : f.remaining using Nat.strongRecOn generalizing f with
  | ind n ih =>
    cases hnext : f.establishNextState with
    | none =>
      obtain ⟨hnoOld, hnoNew⟩ := h.exhausted hnext
      rw [drop_eq_nil_of_le (Nat.le_of_not_lt hnoOld),
        drop_eq_nil_of_le (Nat.le_of_not_lt hnoNew)]
    | some next =>
      obtain ⟨step, f'⟩ := next
      have hstep := establishNextState_step hnext
      rw [steps_of_some hnext] at hpicks
      have hrest := ih f'.remaining (hr ▸ hstep.remaining_lt) (h.step hstep)
        (fun s hs => hpicks s (mem_cons_of_mem _ hs)) rfl
      have hverb := hpicks step mem_cons_self
      -- Only a pick moves both cursors past one element; all other steps contradict the assumption.
      cases hstep with
      | pick ho hn heq =>
        have hold : f.old.data.drop f.oldHead = f.oldElm ho :: f.old.data.drop (f.oldHead + 1) :=
          drop_eq_getElem_cons ho
        have hnew : f.new.data.drop f.newHead = f.newElm hn :: f.new.data.drop (f.newHead + 1) :=
          drop_eq_getElem_cons hn
        rw [hold, hnew, heq]
        exact congrArg (f.newElm hn :: ·) hrest
      | del => cases hverb
      | ins => cases hverb
      | find => cases hverb
      | skip => cases hverb

end DiffFrame

/-- The diff tells a change if and only if the sequences differ. -/
theorem saysChanged_steps_iff (old new : IndexTable V) :
    SaysChanged (DiffFrame.steps ⟨old, new, 0, 0⟩) ↔ new.data ≠ old.data := by
  constructor
  · rintro ⟨step, hmem, hverb⟩ hsame
    rw [steps_of_unchanged (f := ⟨old, new, 0, 0⟩) hsame.symm rfl] at hmem
    obtain ⟨v, -, rfl⟩ := mem_map.mp hmem
    exact hverb rfl
  · intro hdiffer
    by_contra hno
    apply hdiffer
    have hpicks : ∀ step ∈ DiffFrame.steps ⟨old, new, 0, 0⟩, step.verb = .pick := by
      intro step hmem
      by_contra hverb
      exact hno ⟨step, hmem, hverb⟩
    exact ((DiffFrame.Accounted.start old new).drop_eq_of_picks hpicks).symm

/-! ## What the shortcut says -/

namespace DiffDetector

theorem changedFrom_iff {snapshot currentData : List V} :
    changedFrom snapshot currentData = true ↔ ¬ (snapshot <+: currentData ∨ currentData <+: snapshot) := by
  induction snapshot, currentData using changedFrom.induct with
  | case1 snapshot => simp [changedFrom]
  | case2 elm currentData ih => simpa [changedFrom] using ih
  | case3 seen snapshot elm currentData hne =>
    simp only [changedFrom, if_pos hne, cons_prefix_cons, true_iff]
    rintro (⟨rfl, -⟩ | ⟨rfl, -⟩) <;> exact hne rfl
  | case4 seen snapshot elm currentData heq ih =>
    obtain rfl : elm = seen := not_not.mp heq
    rw [changedFrom, if_neg heq, ih]
    simp only [cons_prefix_cons, true_and]

/-! ## The life of a detector -/

/-- A detector which was created on a sequence and has then pulled updates for these contents of it,
one after the other; fails when some of them have duplicates. -/
def following (refSeq : List V) (updates : List (List V)) : Option (DiffDetector V) := do
  let d ← create refSeq
  updates.foldlM (fun d currentData => (·.2) <$> d.pullUpdate currentData) d

theorem exists_foldlM_pullUpdate (d : DiffDetector V) {updates : List (List V)}
    (hupdates : ∀ seq ∈ updates, seq.Nodup) :
    ∃ d', updates.foldlM (fun d currentData => (·.2) <$> d.pullUpdate currentData) d = some d' ∧
      d'.refIdx.data = updates.getLastD d.refIdx.data := by
  induction updates generalizing d with
  | nil => exact ⟨d, rfl, rfl⟩
  | cons seq updates ih =>
    obtain ⟨t, ht, rfl⟩ := IndexTable.exists_ofSeq (hupdates seq mem_cons_self)
    obtain ⟨d', hrest, hdata⟩ := ih ⟨t⟩ fun s hs => hupdates s (mem_cons_of_mem _ hs)
    refine ⟨d', ?_, ?_⟩
    · rw [foldlM_cons, pullUpdate_of_ofSeq d ht]
      exact hrest
    · rw [hdata, getLastD_cons]

/-- The snapshot is the one taken last, at the creation or with the last update. -/
theorem exists_following {refSeq : List V} {updates : List (List V)} (hrefSeq : refSeq.Nodup)
    (hupdates : ∀ seq ∈ updates, seq.Nodup) :
    ∃ d, following refSeq updates = some d ∧ d.refIdx.data = updates.getLastD refSeq := by
  obtain ⟨t, ht, rfl⟩ := IndexTable.exists_ofSeq hrefSeq
  obtain ⟨d, hrun, hdata⟩ := exists_foldlM_pullUpdate ⟨t⟩ hupdates
  refine ⟨d, ?_, hdata⟩
  rw [following, create_of_ofSeq ht]
  exact hrun

end DiffDetector

/-- **The change is detected**: a change is reported if and only if the sequence differs from the
snapshot taken last, which is told by the diff pulled at this point. -/
def ChangeDetected (snapshot : List V) (d : DiffDetector V) (currentData : List V) : Prop :=
  ∃ diff d', d.pullUpdate currentData = some (diff, d') ∧ (SaysChanged diff ↔ currentData ≠ snapshot) ∧
    (d.isChanged currentData = true ↔ currentData ≠ snapshot) ∧
    (d.isChanged currentData = true ↔ SaysChanged diff)

/-- **When changes are detected**: for every detector, whatever it was created on and whatever
updates it has pulled, a change is detected if and only if neither the snapshot nor the current
sequence properly continues the other one. -/
theorem changeDetected_iff {refSeq : List V} {updates : List (List V)} {currentData : List V}
    (hrefSeq : refSeq.Nodup) (hupdates : ∀ seq ∈ updates, seq.Nodup) (hcurrent : currentData.Nodup) :
    ∃ d, DiffDetector.following refSeq updates = some d ∧
      (ChangeDetected (updates.getLastD refSeq) d currentData ↔
        (updates.getLastD refSeq <+: currentData ∨ currentData <+: updates.getLastD refSeq →
          currentData = updates.getLastD refSeq)) := by
  obtain ⟨d, hrun, hdata⟩ := DiffDetector.exists_following hrefSeq hupdates
  obtain ⟨t, ht, rfl⟩ := IndexTable.exists_ofSeq hcurrent
  refine ⟨d, hrun, ?_⟩
  rw [← hdata]
  have hsays := saysChanged_steps_iff d.refIdx t
  have hloop : d.isChanged t.data = true ↔ ¬ (d.refIdx.data <+: t.data ∨ t.data <+: d.refIdx.data) :=
    DiffDetector.changedFrom_iff
  constructor
  · rintro ⟨diff, d', hpull, -, hchanged, -⟩ hprefix
    by_contra hdiffer
    exact hloop.mp (hchanged.mpr hdiffer) hprefix
  · intro hcond
    have hchanged : d.isChanged t.data = true ↔ t.data ≠ d.refIdx.data := by
      rw [hloop]
      refine ⟨fun hno hsame => hno (Or.inl (hsame ▸ prefix_rfl)), fun hdiffer hprefix => ?_⟩
      exact hdiffer (hcond hprefix)
    exact ⟨_, _, DiffDetector.pullUpdate_of_ofSeq d ht, hsays, hchanged, hchanged.trans hsays.symm⟩

/-- Both elements exchanged, after an update. -/
theorem changeDetected_iff_exchanged :
    ([1] : List Nat).Nodup ∧ (∀ seq ∈ [[1, 2]], seq.Nodup) ∧ [2, 1].Nodup ∧
      ∃ d : DiffDetector Nat, DiffDetector.following [1] [[1, 2]] = some d ∧
        (ChangeDetected [1, 2] d [2, 1] ↔ ([1, 2] <+: [2, 1] ∨ [2, 1] <+: [1, 2] → [2, 1] = [1, 2])) :=
  ⟨by decide, by decide, by decide, changeDetected_iff (by decide) (by decide) (by decide)⟩

/-- An element appended to the sequence is not reported, though the diff inserts it. -/
theorem not_changeDetected_appended : ∃ d : DiffDetector Nat, DiffDetector.following [1] [] = some d ∧
    d.isChanged [1, 2] = false ∧ ¬ ChangeDetected [1] d [1, 2] := by
  obtain ⟨d, hrun, hdata⟩ : ∃ d : DiffDetector Nat, DiffDetector.following [1] [] = some d ∧
      d.refIdx.data = [1] :=
    DiffDetector.exists_following (by decide) (by decide)
  have hsame : d.isChanged [1, 2] = false := by
    rw [DiffDetector.isChanged, hdata]
    rfl
  refine ⟨d, hrun, hsame, ?_⟩
  rintro ⟨diff, d', -, -, hchanged, -⟩
  have htrue := hchanged.mpr (by decide)
  rw [hsame] at htrue
  cases htrue

/-! ## Mirroring a sequence

The diffs are messages: they are sent whenever an update was pulled, and applied at any time later on, one
after the other, to another sequence. -/

open List DiffApplication

/-- A detector, the diffs sent and not yet applied, and the sequence they are applied to. -/
structure Mirror (V : Type u) where
  detector : DiffDetector V
  messages : List (List (DiffStep V))
  replica : List V

namespace Mirror

/-- Pull an update for the current data and send the diff, or else apply the oldest message. -/
def step (husk : V → V) (s : Mirror V) : Option (List V) → Option (Mirror V)
  | some currentData => do
    let (diff, detector) ← s.detector.pullUpdate currentData
    return { s with detector, messages := s.messages ++ [diff] }
  | none => do
    let diff ← s.messages.head?
    let replica ← (consume husk s.replica diff).toOption
    return { s with messages := s.messages.tail, replica }

/-- Any interleaving of both sides, starting with the same duplicate-free sequence. -/
def machine (husk : V → V) : Machine (Mirror V) (Option (List V)) where
  init s := DiffDetector.create s.replica = some s.detector ∧ s.messages = [] ∧ s.replica.Nodup
  step s move s' := s.step husk move = some s'

/-- Applying the diffs in sequence leads from one content to another, without an error. -/
def Leads (husk : V → V) (data : List V) : List V → List (List (DiffStep V)) → Prop
  | replica, [] => replica = data
  | replica, diff :: messages => ∃ next, consume husk replica diff = .ok next ∧ Leads husk data next messages

variable {husk : V → V} {s : Mirror V}

/-- A further message continues where the messages before it lead to. -/
theorem Leads.send {messages : List (List (DiffStep V))} {replica : List V} {old new : IndexTable V}
    (h : Leads husk old.data replica messages) :
    Leads husk new.data replica (messages ++ [DiffFrame.steps ⟨old, new, 0, 0⟩]) := by
  induction messages generalizing replica with
  | nil =>
    obtain rfl : replica = old.data := h
    exact ⟨new.data, consume_steps husk old new, rfl⟩
  | cons diff messages ih =>
    obtain ⟨next, hnext, h⟩ := h
    exact ⟨next, hnext, ih h⟩

theorem step_none {detector : DiffDetector V} {diff : List (DiffStep V)} {messages : List (List (DiffStep V))}
    {replica next : List V} (hnext : consume husk replica diff = .ok next) :
    step husk ⟨detector, diff :: messages, replica⟩ none = some ⟨detector, messages, next⟩ := by
  simp [step, hnext, Except.toOption]

/-- The messages lead to the reference point of the detector. -/
theorem invariant_leads : (machine husk).Invariant fun s => Leads husk s.detector.refIdx.data s.replica s.messages where
  init := by
    rintro ⟨detector, messages, replica⟩ ⟨hcreate, rfl, hnodup⟩
    obtain ⟨t, ht, rfl⟩ := IndexTable.exists_ofSeq hnodup
    rw [DiffDetector.create_of_ofSeq ht] at hcreate
    cases hcreate
    rfl
  step s move s' h hstep := by
    obtain ⟨detector, messages, replica⟩ := s
    cases move with
    | some currentData =>
      obtain ⟨⟨diff, detector'⟩, hpull, hs'⟩ := Option.bind_eq_some_iff.mp hstep
      -- the snapshot becomes the new reference point
      obtain ⟨t, -, ht⟩ := Option.bind_eq_some_iff.mp hpull
      cases ht
      cases hs'
      exact h.send
    | none =>
      cases messages with
      | nil => cases hstep
      | cons diff messages =>
        obtain ⟨next, hnext, h⟩ := h
        obtain rfl := Option.some.inj ((step_none hnext).symm.trans hstep)
        exact h

/-- **The replica follows**: whenever the messages are applied, this raises no error, and as soon as all are
applied, the replica is the sequence for which the last update was pulled; and any duplicate-free sequence
can be sent. -/
theorem replica_follows (hs : (machine husk).Reachable s) : (s.messages = [] → s.replica = s.detector.refIdx.data) ∧
    (s.messages ≠ [] → ∃ s', s.step husk none = some s' ∧ s'.messages = s.messages.tail) ∧ ∀ currentData : List V,
    currentData.Nodup → ∃ s', s.step husk (some currentData) = some s' ∧ s'.detector.refIdx.data = currentData ∧
    s'.replica = s.replica := by
  have hleads := invariant_leads.reachable hs
  obtain ⟨detector, messages, replica⟩ := s
  refine ⟨?_, fun hne => ?_, fun currentData hnodup => ?_⟩
  · rintro rfl
    exact hleads
  · obtain ⟨diff, messages, rfl⟩ := exists_cons_of_ne_nil hne
    obtain ⟨next, hnext, -⟩ := hleads
    exact ⟨⟨detector, messages, next⟩, step_none hnext, rfl⟩
  · obtain ⟨t, ht, rfl⟩ := IndexTable.exists_ofSeq hnodup
    refine ⟨⟨⟨t⟩, messages ++ [DiffFrame.steps ⟨detector.refIdx, t, 0, 0⟩], replica⟩, ?_, rfl, rfl⟩
    rw [step, DiffDetector.pullUpdate_of_ofSeq _ ht]
    rfl

theorem replica_follows_exchanged : ∃ s : Mirror Nat, s.replica = [1, 2] ∧
    ∃ s', s.step (fun _ => 0) (some [2, 1]) = some s' ∧ s'.detector.refIdx.data = [2, 1] ∧ s'.replica = s.replica := by
  have hnodup : [1, 2].Nodup := by decide
  obtain ⟨t, ht, -⟩ := IndexTable.exists_ofSeq hnodup
  have hinit : (machine fun _ : Nat => 0).Reachable ⟨⟨t⟩, [], [1, 2]⟩ :=
    .of_init ⟨DiffDetector.create_of_ofSeq ht, rfl, hnodup⟩
  exact ⟨_, rfl, (replica_follows hinit).2.2 [2, 1] (by decide)⟩

end Mirror

end Lumiera.Lib.Diff
