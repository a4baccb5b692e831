import Mathlib.Data.Option.Basic
import Mathlib.Order.MinMax
import Lumiera.Lib.SplitSplice

/-! # »Split-Splice« places a segment

Whenever the split point is right (`GoodSplit`: the predecessor starts no later than the new
segment, and the successor is the next segment), the stages which follow compute exactly
`Carving.splice`. The split point is right for every request but one kind: the bounds are given in
reversed order, and a segment starts strictly between them. -/

namespace Lumiera.Lib.SplitSplice

open List

theorem ensure_of_true {checked : Bool} {cond : Prop} [Decidable cond] (h : cond) :
    ensure checked cond = some () := by
  simp [ensure, h]

namespace Binding

variable {ORD SEG PAY : Type} [LinearOrder ORD]
variable {B : Binding ORD SEG PAY} {segs : List SEG} {checked : Bool}

/-! ## The loops -/

variable {xs ys : List SEG}

theorem seek_append {sep : ORD} (hxs : ∀ s ∈ xs, B.start s < sep) (hys : ∀ s ∈ ys.head?, ¬ B.start s < sep)
    (pred succ : Nat) :
    B.seek sep (xs ++ ys) pred succ = (if xs = [] then pred else succ + xs.length - 1, succ + xs.length) := by
  induction xs generalizing pred succ with
  | nil =>
    cases ys with
    | nil => rfl
    | cons y ys => simp [seek, hys y rfl]
  | cons x xs ih =>
    rw [cons_append, seek, if_pos (hxs x mem_cons_self),
      ih fun s hs => hxs s (mem_cons_of_mem _ hs)]
    by_cases hnil : xs = []
    · simp [hnil]
    · simp only [hnil, if_false, length_cons, reduceCtorEq, Prod.mk.injEq]
      omega

theorem exists_split_at (sep : ORD) (segs : List SEG) : ∃ xs ys, segs = xs ++ ys ∧ (∀ s ∈ xs, B.start s < sep) ∧
    ∀ s ∈ ys.head?, ¬ B.start s < sep := by
  induction segs with
  | nil => exact ⟨[], [], rfl, by simp, by simp⟩
  | cons s segs ih =>
    by_cases hs : B.start s < sep
    · obtain ⟨xs, ys, rfl, hxs, hys⟩ := ih
      refine ⟨s :: xs, ys, rfl, ?_, hys⟩
      intro t ht
      rcases mem_cons.mp ht with rfl | hmem
      · exact hs
      · exact hxs t hmem
    · exact ⟨[], s :: segs, rfl, by simp, by simpa using hs⟩

theorem skipSpanned_append {bound : ORD} {r : SEG} (hxs : ∀ s ∈ xs, B.after s < bound) (hr : bound ≤ B.after r)
    (i : Nat) : B.skipSpanned bound (xs ++ r :: ys) i = some (i + xs.length) := by
  induction xs generalizing i with
  | nil => simp [skipSpanned, not_lt.mpr hr]
  | cons x xs ih =>
    rw [cons_append, skipSpanned, if_pos (hxs x mem_cons_self),
      ih fun s hs => hxs s (mem_cons_of_mem _ hs), length_cons]
    congr 1
    omega

theorem exists_first_reaching {a b bound : ORD} {ds : List SEG} (h : B.Seamless a b ds) (ha : a < bound)
    (hb : bound ≤ b) : ∃ xs r ys, ds = xs ++ r :: ys ∧ (∀ s ∈ xs, B.after s < bound) ∧ B.start r < bound ∧
    bound ≤ B.after r ∧ B.Seamless (B.after r) b ys := by
  induction ds generalizing a with
  | nil => exact absurd (hb.trans (le_of_eq (Eq.symm h))) (not_le.mpr ha)
  | cons s ds ih =>
    obtain ⟨rfl, -, hrest⟩ := h
    by_cases hs : B.after s < bound
    · obtain ⟨xs, r, ys, rfl, hxs, hr⟩ := ih hrest hs
      refine ⟨s :: xs, r, ys, rfl, ?_, hr⟩
      intro t ht
      rcases mem_cons.mp ht with rfl | hmem
      · exact hs
      · exact hxs t hmem
    · exact ⟨[], s, ds, rfl, by simp, ha, not_lt.mp hs, hrest⟩

/-! ## Stage-3 and Stage-4 at a good split point -/

/-- **A good split point**: the new segment starts within the predecessor or right after it, and
the successor is the next segment, or the predecessor itself at the borders of the axis. -/
structure GoodSplit (B : Binding ORD SEG PAY) (xs : List SEG) (pr : SEG) (ys : List SEG)
    (p : SplitPoint ORD) : Prop where
  pred_eq : p.pred = xs.length
  start_le : B.start pr ≤ p.start
  le_after : p.start ≤ B.after pr
  lt : p.start < p.after
  le_hi : p.after ≤ B.hi
  succ_eq : (p.succ = xs.length + 1 ∧ ys ≠ []) ∨
    (p.succ = xs.length ∧ (ys = [] ∨ B.start pr = p.start))

variable {p : SplitPoint ORD}

/-- The relation to the successor replaces what lies before the end of the new segment by what is
cut off after it. -/
theorem relateSuccessor_spec (checked : Bool) (xs : List SEG) {ds : List SEG} {d : SEG}
    (hds : B.Seamless (B.start d) B.hi (d :: ds)) (hsucc : p.succ = xs.length)
    (hd : B.start d ≤ p.after) (hhi : p.after ≤ B.hi) :
    ∃ op succ ref, B.relateSuccessor checked (xs ++ d :: ds) p = some (op, succ) ∧
      (xs ++ d :: ds)[succ]? = some ref ∧ op ≠ .NIL ∧ xs.length ≤ succ ∧
      B.adaptSucc p ref op ++ (xs ++ d :: ds).drop (dropEnd op succ) =
        B.cutAfter p.after (d :: ds) := by
  have hhere : (xs ++ d :: ds)[p.succ]? = some d := by simp [hsucc]
  have hdrop : (xs ++ d :: ds).drop p.succ = d :: ds := by simp [hsucc]
  rcases lt_or_eq_of_le hd with hlt | heq
  · obtain ⟨zs, r, rs, hsplit, hzs, hstart, hreach, hrest⟩ := exists_first_reaching hds hlt hhi
    have hskip : B.skipSpanned p.after (d :: ds) p.succ = some (xs.length + zs.length) := by
      rw [hsplit, skipSpanned_append hzs hreach, hsucc]
    have hwhole : xs ++ d :: ds = (xs ++ zs) ++ r :: rs := by rw [hsplit, append_assoc]
    have href : (xs ++ d :: ds)[xs.length + zs.length]? = some r := by
      rw [hwhole]
      simp
    have hdrop' : (xs ++ d :: ds).drop (xs.length + zs.length + 1) = rs := by
      rw [hwhole, drop_append]
      simp
    have hcut : B.cutAfter p.after (d :: ds) = B.cutAfter p.after (r :: rs) := by
      rw [hsplit, Carving.cutAfter_append fun s hs => (hzs s hs).le]
    rcases lt_or_eq_of_le hreach with hbeyond | hmatch
    · refine ⟨.TRUNC, xs.length + zs.length, r, ?_, href, by decide, Nat.le_add_right _ _, ?_⟩
      · simp [relateSuccessor, hhere, hlt, hdrop, hskip, href, ensure_of_true hstart,
          hbeyond.ne, hbeyond]
      · rw [hcut, Carving.cutAfter, if_neg (not_le.mpr hbeyond), if_pos hstart]
        simp [dropEnd, adaptSucc, hdrop']
    · refine ⟨.DROP, xs.length + zs.length, r, ?_, href, by decide, Nat.le_add_right _ _, ?_⟩
      · simp [relateSuccessor, hhere, hlt, hdrop, hskip, href, ensure_of_true hstart,
          ← hmatch]
      · rw [hcut, Carving.cutAfter, if_pos hmatch.ge, hrest.cutAfter_eq_self hmatch.le]
        simp [dropEnd, adaptSucc, hdrop']
  · refine ⟨.SEAMLESS, p.succ, d, ?_, hhere, by decide, hsucc.ge, ?_⟩
    · simp [relateSuccessor, hhere, heq]
    · rw [hds.cutAfter_eq_self heq.ge]
      simp [dropEnd, adaptSucc, hdrop]

variable {pr : SEG}

/-- The successor side, when the new segment reaches the end of the predecessor. -/
theorem GoodSplit.relateSuccessor (checked : Bool)
    (g : GoodSplit B xs pr ys p) (h : B.Seamless B.lo B.hi (xs ++ pr :: ys))
    (hreach : B.after pr ≤ p.after) :
    ∃ op succ ref, B.relateSuccessor checked (xs ++ pr :: ys) p = some (op, succ) ∧
      (xs ++ pr :: ys)[succ]? = some ref ∧ op ≠ .NIL ∧ p.succ ≤ succ ∧
      B.adaptSucc p ref op ++ (xs ++ pr :: ys).drop (dropEnd op succ) =
        B.cutAfter p.after (xs ++ pr :: ys) := by
  obtain ⟨m, hxs, rfl, hpr, hys⟩ := B.seamless_append.mp h
  have hbefore : ∀ s ∈ xs, B.after s ≤ p.after := fun s hs =>
    (hxs.bounds hs).2.2.trans (g.start_le.trans g.lt.le)
  have hstart : B.start pr ≤ p.after := g.start_le.trans g.lt.le
  rcases g.succ_eq with ⟨hsucc, hne⟩ | ⟨hsucc, -⟩
  · obtain ⟨q, ys, rfl⟩ := exists_cons_of_ne_nil hne
    have hq : B.start q = B.after pr := hys.1
    have hwhole : xs ++ pr :: q :: ys = (xs ++ [pr]) ++ q :: ys := by simp
    have hbefore' : ∀ s ∈ xs ++ [pr], B.after s ≤ p.after := by
      intro s hs
      rcases mem_append.mp hs with hmem | hmem
      · exact hbefore s hmem
      · obtain rfl := mem_singleton.mp hmem
        exact hreach
    obtain ⟨op, succ, ref, hrel, href, hop, hle, hcut⟩ :=
      relateSuccessor_spec checked (xs ++ [pr]) (hq ▸ hys)
        (by simpa using hsucc) (hq.le.trans hreach) g.le_hi
    rw [hwhole, Carving.cutAfter_append hbefore']
    exact ⟨op, succ, ref, hrel, href, hop, by simpa [hsucc] using hle, hcut⟩
  · obtain ⟨op, succ, ref, hrel, href, hop, hle, hcut⟩ :=
      relateSuccessor_spec checked xs ⟨rfl, hpr, hys⟩ hsucc hstart g.le_hi
    rw [Carving.cutAfter_append hbefore]
    exact ⟨op, succ, ref, hrel, href, hop, hsucc.le.trans hle, hcut⟩

theorem GoodSplit.adaptSucc_spanning
    (g : GoodSplit B xs pr ys p) (h : B.Seamless B.lo B.hi (xs ++ pr :: ys))
    (hspan : p.after < B.after pr) :
    B.adaptSucc p pr .TRUNC ++ (xs ++ pr :: ys).drop (dropEnd .TRUNC p.pred) =
      B.cutAfter p.after (xs ++ pr :: ys) := by
  obtain ⟨m, hxs, rfl, hpr, hys⟩ := B.seamless_append.mp h
  have hstart : B.start pr < p.after := lt_of_le_of_lt g.start_le g.lt
  rw [Carving.cutAfter_append fun s hs => (hxs.bounds hs).2.2.trans hstart.le,
    Carving.cutAfter, if_neg (not_le.mpr hspan), if_pos hstart, g.pred_eq]
  simp [adaptSucc, dropEnd]

theorem performSplitSplice_spec (checked : Bool) (rel : Relations)
    {refPred refSucc : SEG}
    (hpred : segs[p.pred]? = some refPred) (hsucc : segs[rel.succ]? = some refSucc)
    (hops : rel.opPred ≠ .NIL ∧ rel.opSucc ≠ .NIL)
    (hrange : insPos rel.opPred p.pred ≤ dropEnd rel.opSucc rel.succ)
    (hfront : segs.take (insPos rel.opPred p.pred) ++ B.adaptPred p refPred rel.opPred =
      B.cutBefore p.start segs)
    (hback : B.adaptSucc p refSucc rel.opSucc ++ segs.drop (dropEnd rel.opSucc rel.succ) =
      B.cutAfter p.after segs)
    (hlo : B.lo ≤ p.start) (hlt : p.start < p.after) (hhi : p.after ≤ B.hi) :
    ∃ r, B.performSplitSplice checked segs p rel = some r ∧
      r.segments = B.splice (B.createSeg p.start p.after) segs ∧
      r.n = (B.cutBefore p.start segs).length := by
  have hpos : insPos rel.opPred p.pred ≤ segs.length := by
    have := (List.getElem?_eq_some_iff.mp hpred).1
    unfold insPos
    split <;> omega
  refine ⟨_, by
    simp only [performSplitSplice, hpred, hsucc, ensure_of_true hops, guard, if_pos hrange]
    rfl, ?_, ?_⟩
  · rw [Carving.splice, B.start_createSeg _ _ hlo hlt.le hhi, B.after_createSeg _ _ hlo hlt.le hhi,
      ← hfront, ← hback]
  · rw [← hfront]
    simp [hpos]

/-- The predecessor side: one of three verbs, each adapting the predecessor as it is cut off. -/
theorem GoodSplit.relatePredecessor (checked : Bool)
    (g : GoodSplit B xs pr ys p) (h : B.Seamless B.lo B.hi (xs ++ pr :: ys)) :
    ∃ op, op ≠ .NIL ∧ insPos op p.pred ≤ p.succ ∧
      (xs ++ pr :: ys).take (insPos op p.pred) ++ B.adaptPred p pr op =
        B.cutBefore p.start (xs ++ pr :: ys) ∧
      (p.after < B.after pr → insPos op p.pred = p.pred ∧
        B.determineRelations checked (xs ++ pr :: ys) p = some ⟨op, .TRUNC, p.pred⟩) ∧
      (¬ p.after < B.after pr → B.determineRelations checked (xs ++ pr :: ys) p =
        (B.relateSuccessor checked (xs ++ pr :: ys) p).map fun rel => ⟨op, rel.1, rel.2⟩) := by
  have hpred : (xs ++ pr :: ys)[p.pred]? = some pr := by simp [g.pred_eq]
  have hle : xs.length ≤ p.succ := by rcases g.succ_eq with ⟨h, -⟩ | ⟨h, -⟩ <;> omega
  obtain ⟨m, hxs, rfl, hpr, hys⟩ := B.seamless_append.mp h
  have hcut : B.cutBefore p.start (xs ++ pr :: ys) = xs ++ B.cutBefore p.start (pr :: ys) :=
    Carving.cutBefore_append fun s hs => (hxs.bounds hs).2.2.trans g.start_le
  have hmap : ∀ op, (B.relateSuccessor checked (xs ++ pr :: ys) p).bind
      (fun rel => some (⟨op, rel.1, rel.2⟩ : Relations)) =
      (B.relateSuccessor checked (xs ++ pr :: ys) p).map fun rel => ⟨op, rel.1, rel.2⟩ :=
    fun op => by cases B.relateSuccessor checked (xs ++ pr :: ys) p <;> rfl
  rcases lt_or_eq_of_le g.start_le with hbefore | hsame
  · rcases lt_or_eq_of_le g.le_after with hover | hadj
    · refine ⟨.TRUNC, by decide, by simpa [insPos, g.pred_eq] using hle, ?_, ?_, ?_⟩
      · rw [hcut, Carving.cutBefore, if_neg (not_le.mpr hover), if_pos hbefore]
        simp [insPos, adaptPred, g.pred_eq]
      · intro hspan
        simp [insPos, determineRelations, hpred, hbefore, not_lt.mpr hover.le, hover.ne', hspan]
      · intro hspan
        rw [← hmap]
        simp [determineRelations, hpred, hbefore, not_lt.mpr hover.le, hover.ne', hspan]
    · -- the axis continues, thus the predecessor is not the last segment
      have hne : ys ≠ [] := by
        rintro rfl
        exact absurd (lt_of_lt_of_le g.lt g.le_hi) (not_lt.mpr ((le_of_eq (Eq.symm hys)).trans
          hadj.symm.le))
      have hsucc : p.succ = xs.length + 1 := by
        rcases g.succ_eq with ⟨hsucc, -⟩ | ⟨-, hnil | hsame⟩
        · exact hsucc
        · exact absurd hnil hne
        · exact absurd hsame hbefore.ne
      refine ⟨.SEAMLESS, by decide, by simp [insPos, g.pred_eq, hsucc], ?_, ?_, ?_⟩
      · rw [hcut, Carving.cutBefore, if_pos hadj.symm.le, hys.cutBefore_eq_nil hadj.le]
        simp [insPos, adaptPred, g.pred_eq, take_append,
          take_of_length_le (Nat.le_succ xs.length)]
      · intro hspan
        exact absurd (g.lt.trans hspan) (not_lt.mpr hadj.symm.le)
      · intro hspan
        rw [← hmap]
        simp [determineRelations, hpred, hbefore, ← hadj]
  · refine ⟨.DROP, by decide, by simpa [insPos, g.pred_eq] using hle, ?_, ?_, ?_⟩
    · have hnil : B.cutBefore p.start (pr :: ys) = [] :=
        Carving.Seamless.cutBefore_eq_nil (C := B.toCarving) ⟨rfl, hpr, hys⟩ hsame.symm.le
      rw [hcut, hnil]
      simp [insPos, adaptPred, g.pred_eq]
    · intro hspan
      simp [insPos, determineRelations, hpred, hsame, hspan, ensure_of_true]
    · intro hspan
      rw [← hmap]
      simp [determineRelations, hpred, hsame, hspan, ensure_of_true]

/-- At a good split point, Stage-3 and Stage-4 place the new segment. -/
theorem GoodSplit.performSplitSplice (checked : Bool)
    (g : GoodSplit B xs pr ys p) (h : B.Seamless B.lo B.hi (xs ++ pr :: ys)) :
    ∃ rel r, B.determineRelations checked (xs ++ pr :: ys) p = some rel ∧
      B.performSplitSplice checked (xs ++ pr :: ys) p rel = some r ∧
      r.segments = B.splice (B.createSeg p.start p.after) (xs ++ pr :: ys) ∧
      r.n = (B.cutBefore p.start (xs ++ pr :: ys)).length := by
  have hpred : (xs ++ pr :: ys)[p.pred]? = some pr := by simp [g.pred_eq]
  have hlo : B.lo ≤ p.start := (h.bounds (s := pr) (by simp)).1.trans g.start_le
  obtain ⟨op, hop, hins, hfront, hspanning, hreaching⟩ :=
    g.relatePredecessor checked h
  by_cases hspan : p.after < B.after pr
  · obtain ⟨hpos, hrel⟩ := hspanning hspan
    obtain ⟨r, hr⟩ := performSplitSplice_spec checked ⟨op, .TRUNC, p.pred⟩ hpred hpred ⟨hop, by simp⟩
      (by simp [hpos, dropEnd]) hfront (g.adaptSucc_spanning h hspan) hlo g.lt g.le_hi
    exact ⟨_, r, hrel, hr⟩
  · obtain ⟨opSucc, succ, ref, hrel, href, hops, hle, hback⟩ :=
      g.relateSuccessor checked h (not_lt.mp hspan)
    have hdrop : succ ≤ dropEnd opSucc succ := by
      unfold dropEnd
      split <;> omega
    obtain ⟨r, hr⟩ := performSplitSplice_spec checked ⟨op, opSucc, succ⟩ hpred href ⟨hop, hops⟩
      ((hins.trans hle).trans hdrop) hfront hback hlo g.lt g.le_hi
    exact ⟨_, r, by rw [hreaching hspan, hrel]; rfl, hr⟩

/-! ## Stage-1 and Stage-2 -/

/-- **Where the split point is located**: at the first segment, at the last one, or between two. -/
inductive Located (B : Binding ORD SEG PAY) (sep : ORD) :
    List SEG → Nat → Nat → SEG → SEG → Prop
  | first (c : SEG) (ys : List SEG) : sep ≤ B.start c → Located B sep (c :: ys) 0 0 c c
  | last (xs : List SEG) (pr : SEG) : B.start pr < sep →
      Located B sep (xs ++ [pr]) xs.length xs.length pr pr
  | between (xs ys : List SEG) (pr q : SEG) : B.start pr < sep → sep ≤ B.start q →
      Located B sep (xs ++ pr :: q :: ys) xs.length (xs.length + 1) pr q

/-- The split point is located as described, in every non-empty segmentation. -/
theorem exists_located (checked : Bool) (hne : segs ≠ []) (sep : ORD) :
    ∃ pred succ predSeg succSeg, B.locate checked segs sep = some (pred, succ) ∧
      segs[pred]? = some predSeg ∧ segs[succ]? = some succSeg ∧
      Located B sep segs pred succ predSeg succSeg := by
  obtain ⟨xs, ys, rfl, hxs, hys⟩ := exists_split_at (B := B) sep segs
  have hseek := seek_append hxs hys (xs ++ ys).length 0
  rcases eq_nil_or_concat xs with rfl | ⟨xs, pr, rfl⟩
  · cases ys with
    | nil => exact absurd rfl hne
    | cons c ys =>
      refine ⟨0, 0, c, c, ?_, rfl, rfl, .first c ys (not_lt.mp (hys c rfl))⟩
      simp only [locate, hseek]
      simp [ensure_of_true]
  · have hpr : B.start pr < sep := hxs pr (by simp)
    cases ys with
    | nil =>
      refine ⟨xs.length, xs.length, pr, pr, ?_, by simp, by simp, by simpa using .last xs pr hpr⟩
      simp only [locate, hseek]
      simp [ensure_of_true]
    | cons q ys =>
      refine ⟨xs.length, xs.length + 1, pr, q, ?_, by simp, by simp, ?_⟩
      · simp only [locate, hseek]
        simp [ensure_of_true]
      · simpa using .between xs ys pr q hpr (not_lt.mp (hys q rfl))

theorem construct_eq {start after : Option ORD} {pred succ : Nat} {predSeg succSeg : SEG}
    (hloc : B.locate checked segs (B.separator start after) = some (pred, succ))
    (hpred : segs[pred]? = some predSeg) (hsucc : segs[succ]? = some succSeg) {s a : ORD}
    (hs : start.getD (B.inferStart (B.separator start after) predSeg) = s)
    (ha : after.getD (B.inferAfter (B.separator start after) succSeg) = a) :
    B.construct checked segs start after =
      (ensure checked (s ≠ a)).bind fun _ =>
      (ensure checked (min s a < max s a)).bind fun _ =>
      (ensure checked (B.start predSeg ≤ min s a)).bind fun _ =>
      (ensure checked (min s a ≤ B.start succSeg ∨ pred = succ)).bind fun _ =>
        some ⟨pred, succ, min s a, max s a⟩ := by
  subst hs ha
  simp only [construct, establishSplitPoint, hloc, hpred, hsucc, Option.bind_eq_bind,
    Option.bind_some]
  cases ensure checked (start.getD (B.inferStart (B.separator start after) predSeg) ≠
      after.getD (B.inferAfter (B.separator start after) succSeg)) with
  | none => rfl
  | some u =>
    rcases lt_or_ge (start.getD (B.inferStart (B.separator start after) predSeg))
      (after.getD (B.inferAfter (B.separator start after) succSeg)) with hlt | hge
    · simp [if_pos hlt, min_eq_left hlt.le, max_eq_right hlt.le, hpred, hsucc]
    · simp [if_neg (not_lt.mpr hge), min_eq_right hge, max_eq_left hge, hpred, hsucc]

/-! ## What is requested, and when it is done -/

variable (B) in
/-- The bounds of the new segment, as requested or inferred: a missing end is the end of the
segment covering the start, a missing start is the start of the segment reaching the end, and
without any bound the last segment is replaced. -/
def Requested (segs : List SEG) : Option ORD → Option ORD → ORD → ORD → Prop
  | some x, some y, s, a => s = min x y ∧ a = max x y
  | some x, none, s, a => s = x ∧ ∃ seg ∈ segs, B.start seg ≤ x ∧ x < B.after seg ∧ a = B.after seg
  | none, some y, s, a => a = y ∧ ∃ seg ∈ segs, B.start seg < y ∧ y ≤ B.after seg ∧ s = B.start seg
  | none, none, s, a => ∃ seg, segs.getLast? = some seg ∧ s = B.start seg ∧ a = B.after seg

variable (B) in
/-- **The new segment is integrated.** The result is seamless over the whole axis; it contains the
new segment, at the requested bounds, amidst parts of the former segments, which carry the payload
they had; and outside of the new segment every point carries the payload it had. -/
def Integrated (segs : List SEG) (start after : Option ORD) (r : Spliced SEG) : Prop :=
  B.Seamless B.lo B.hi r.segments ∧
    ∃ left new right, r.segments = left ++ new :: right ∧ r.n = left.length ∧
      B.payload new = B.newPayload ∧
      B.Requested segs start after (B.start new) (B.after new) ∧
      (∀ s ∈ left ++ right, B.PartOf segs s) ∧
      ∀ t, B.lo ≤ t → t < B.hi → ¬ (B.start new ≤ t ∧ t < B.after new) →
        B.payloadAt r.segments t = B.payloadAt segs t

variable (B) in
/-- **Regular requests**: bounds given in reversed order have no start of a segment strictly
between them, and a single bound leaves room for a segment within the axis. -/
def Regular (segs : List SEG) : Option ORD → Option ORD → Prop
  | some s, some a => s < a ∨ ∀ seg ∈ segs, ¬ (a < B.start seg ∧ B.start seg < s)
  | some s, none => s < B.hi
  | none, some a => B.lo < a
  | none, none => True

variable {start after : Option ORD}

theorem GoodSplit.integrated
    (g : GoodSplit B xs pr ys p) (h : B.Seamless B.lo B.hi (xs ++ pr :: ys))
    (hp : B.construct checked (xs ++ pr :: ys) start after = some p)
    (hreq : B.Requested (xs ++ pr :: ys) start after p.start p.after) :
    ∃ r, B.splitSplice checked (xs ++ pr :: ys) start after = some r ∧
      B.Integrated (xs ++ pr :: ys) start after r := by
  obtain ⟨rel, r, hrel, hr, hsegs, hn⟩ := g.performSplitSplice checked h
  have hlo : B.lo ≤ p.start := (h.bounds (s := pr) (by simp)).1.trans g.start_le
  have hs := B.start_createSeg _ _ hlo g.lt.le g.le_hi
  have ha := B.after_createSeg _ _ hlo g.lt.le g.le_hi
  have hlo' := hlo
  have hlt := g.lt
  have hhi := g.le_hi
  rw [← hs] at hlo'
  rw [← ha] at hhi
  have hlt' : B.start (B.createSeg p.start p.after) < B.after (B.createSeg p.start p.after) := by
    rw [hs, ha]
    exact hlt
  refine ⟨r, by simp [splitSplice, hp, hrel, hr], ?_, _, _, _, hsegs, ?_, ?_, ?_, ?_, ?_⟩
  · rw [hsegs]
    exact Carving.splice_seamless h hlo' hlt' hhi
  · rw [hs]
    exact hn
  · exact B.payload_createSeg _ _
  · rw [hs, ha]
    exact hreq
  · exact fun s hmem => Carving.partOf_splice h hlo' hlt' hhi hmem
  · intro t ht _ hout
    rw [hsegs]
    exact Carving.payloadAt_splice_of_outside h hlo' hlt' hhi ht hout

variable {r : Spliced SEG}

theorem exists_segments_eq
    (h : B.splitSplice checked segs start after = some r) :
    ∃ p left right, B.construct checked segs start after = some p ∧
      r.segments = left ++ B.createSeg p.start p.after :: right ∧
      ∀ pr, segs[p.pred]? = some pr → ¬ B.start pr < p.start → left = segs.take p.pred := by
  simp only [splitSplice, Option.bind_eq_bind, Option.bind_eq_some_iff] at h
  obtain ⟨p, hp, rel, hrel, hr⟩ := h
  simp only [performSplitSplice, Option.bind_eq_bind, Option.bind_eq_some_iff] at hr
  obtain ⟨refPred, hpred, refSucc, -, -, -, -, -, hr⟩ := hr
  cases hr
  refine ⟨p, _, _, hp, rfl, ?_⟩
  intro pr hpr hnot
  obtain rfl : refPred = pr := Option.some.inj (hpred.symm.trans hpr)
  have hdrop : rel.opPred = .DROP := by
    simp only [determineRelations, hpred, Option.bind_eq_bind, Option.bind_some, if_neg hnot,
      Option.bind_eq_some_iff] at hrel
    obtain ⟨-, -, hrel⟩ := hrel
    split at hrel
    · cases hrel
      rfl
    · obtain ⟨succ, -, hrel⟩ := Option.bind_eq_some_iff.mp hrel
      cases hrel
      rfl
  simp [hdrop, insPos, adaptPred]

theorem construct_of_post {pred succ : Nat} {predSeg succSeg : SEG} {s a : ORD}
    (hloc : B.locate checked segs (B.separator start after) = some (pred, succ))
    (hpred : segs[pred]? = some predSeg) (hsucc : segs[succ]? = some succSeg)
    (hs : start.getD (B.inferStart (B.separator start after) predSeg) = s)
    (ha : after.getD (B.inferAfter (B.separator start after) succSeg) = a) (hne : s ≠ a)
    (hle : B.start predSeg ≤ min s a) (hbetween : min s a ≤ B.start succSeg ∨ pred = succ) :
    B.construct checked segs start after = some ⟨pred, succ, min s a, max s a⟩ := by
  rw [construct_eq hloc hpred hsucc hs ha, ensure_of_true hne, ensure_of_true (min_lt_max.mpr hne),
    ensure_of_true hle, ensure_of_true hbetween]
  rfl

variable {sep : ORD} {pred succ : Nat} {predSeg succSeg : SEG}

theorem Located.predSeg_spec (hat : Located B sep segs pred succ predSeg succSeg) (h : B.Seamless B.lo B.hi segs)
    (hlo : B.lo ≤ sep) (hhi : sep ≤ B.hi) : predSeg ∈ segs ∧ B.start predSeg ≤ sep ∧ sep ≤ B.after predSeg ∧
    (sep ≤ B.start predSeg → B.start predSeg = B.lo) := by
  cases hat with
  | first _ ys hsep =>
    obtain ⟨hc, hlt, -⟩ := h
    exact ⟨mem_cons_self, hc.trans_le hlo, hsep.trans hlt.le, fun _ => hc⟩
  | last xs _ hpr =>
    obtain ⟨m, -, rfl, -, hend⟩ := B.seamless_append.mp h
    exact ⟨by simp, hpr.le, hhi.trans (le_of_eq (Eq.symm hend)),
      fun hle => absurd hpr (not_lt.mpr hle)⟩
  | between xs ys _ _ hpr hq =>
    obtain ⟨m, -, rfl, -, hadj, -⟩ := B.seamless_append.mp h
    exact ⟨by simp, hpr.le, hq.trans hadj.le, fun hle => absurd hpr (not_lt.mpr hle)⟩

theorem Located.start_le_or_le (hat : Located B sep segs pred succ predSeg succSeg) (h : B.Seamless B.lo B.hi segs)
    {s : SEG} (hs : s ∈ segs) : B.start s ≤ B.start predSeg ∨ sep ≤ B.start s := by
  cases hat with
  | first _ ys hsep =>
    have hc : B.start predSeg = B.lo := h.1
    exact .inr (hsep.trans (hc.le.trans (h.bounds hs).1))
  | last xs _ hpr =>
    obtain ⟨m, hxs, rfl, -⟩ := B.seamless_append.mp h
    rcases mem_append.mp hs with hmem | hmem
    · obtain ⟨-, hlt, hle⟩ := hxs.bounds hmem
      exact .inl (hlt.le.trans hle)
    · obtain rfl := mem_singleton.mp hmem
      exact .inl le_rfl
  | between xs ys _ _ hpr hq =>
    obtain ⟨m, hxs, rfl, -, hys⟩ := B.seamless_append.mp h
    rcases mem_append.mp hs with hmem | hmem
    · obtain ⟨-, hlt, hle⟩ := hxs.bounds hmem
      exact .inl (hlt.le.trans hle)
    · rcases mem_cons.mp hmem with rfl | hmem
      · exact .inl le_rfl
      · have hadj : B.start succSeg = B.after predSeg := hys.1
        exact .inr (hq.trans (hadj.le.trans (hys.bounds hmem).1))

theorem Located.inferAfter_spec (hat : Located B sep segs pred succ predSeg succSeg)
    (h : B.Seamless B.lo B.hi segs) (hlo : B.lo ≤ sep) (hhi : sep < B.hi) :
    ∃ seg ∈ segs, B.start seg ≤ sep ∧ sep < B.after seg ∧
      B.inferAfter sep succSeg = B.after seg := by
  cases hat with
  | first _ ys hsep =>
    obtain ⟨hc, hlt, -⟩ := h
    refine ⟨predSeg, mem_cons_self, hc.trans_le hlo, hsep.trans_lt hlt, ?_⟩
    rw [inferAfter, if_neg (not_lt.mpr (hc.trans_le hlo))]
  | last xs _ hpr =>
    obtain ⟨m, -, rfl, -, hend⟩ := B.seamless_append.mp h
    refine ⟨predSeg, by simp, hpr.le, hhi.trans_le (le_of_eq (Eq.symm hend)), ?_⟩
    rw [inferAfter, if_neg (not_lt.mpr hpr.le)]
  | between xs ys _ _ hpr hq =>
    obtain ⟨m, -, rfl, -, hadj, hlt, -⟩ := B.seamless_append.mp h
    rcases lt_or_eq_of_le hq with hbefore | hsame
    · refine ⟨predSeg, by simp, hpr.le, hbefore.trans_le hadj.le, ?_⟩
      rw [inferAfter, if_pos hbefore, hadj]
    · refine ⟨succSeg, by simp, hsame.ge, hsame.trans_lt hlt, ?_⟩
      rw [inferAfter, if_neg (not_lt.mpr hsame.ge)]

theorem Located.of_hi (hat : Located B B.hi segs pred succ predSeg succSeg)
    (h : B.Seamless B.lo B.hi segs) : succSeg = predSeg ∧ segs.getLast? = some predSeg := by
  cases hat with
  | first _ ys hsep =>
    obtain ⟨-, hlt, hle⟩ := h.bounds (s := predSeg) mem_cons_self
    exact absurd (lt_of_le_of_lt hsep hlt) (not_lt.mpr hle)
  | last xs _ hpr => exact ⟨rfl, by simp⟩
  | between xs ys _ _ hpr hq =>
    obtain ⟨-, hlt, hle⟩ := h.bounds (s := succSeg) (by simp)
    exact absurd (lt_of_le_of_lt hq hlt) (not_lt.mpr hle)

/-- A request is integrated when its bounds lie within the reach of the predecessor. -/
theorem Located.integrated {s a b₀ b₁ : ORD}
    (hat : Located B (B.separator start after) segs pred succ predSeg succSeg)
    (h : B.Seamless B.lo B.hi segs)
    (hloc : B.locate checked segs (B.separator start after) = some (pred, succ))
    (hpred : segs[pred]? = some predSeg) (hsucc : segs[succ]? = some succSeg)
    (hs : start.getD (B.inferStart (B.separator start after) predSeg) = s)
    (ha : after.getD (B.inferAfter (B.separator start after) succSeg) = a) (hne : s ≠ a)
    (hmin : min s a = b₀) (hmax : max s a = b₁) (hle : B.start predSeg ≤ b₀)
    (hreach : b₀ ≤ B.after predSeg) (hhi : b₁ ≤ B.hi)
    (hfirst : B.separator start after ≤ B.start predSeg → B.start predSeg = b₀)
    (hreq : B.Requested segs start after b₀ b₁) :
    ∃ r, B.splitSplice checked segs start after = some r ∧ B.Integrated segs start after r := by
  subst hmin hmax
  have hlt : min s a < max s a := min_lt_max.mpr hne
  cases hat with
  | first _ ys hsep =>
    have hp := construct_of_post hloc hpred hsucc hs ha hne hle (.inr rfl)
    have g : GoodSplit B [] predSeg ys ⟨0, 0, min s a, max s a⟩ :=
      ⟨rfl, hle, hreach, hlt, hhi, .inr ⟨rfl, .inr (hfirst hsep)⟩⟩
    exact g.integrated h hp hreq
  | last xs _ hpr =>
    have hp := construct_of_post hloc hpred hsucc hs ha hne hle (.inr rfl)
    have g : GoodSplit B xs predSeg [] ⟨xs.length, xs.length, min s a, max s a⟩ :=
      ⟨rfl, hle, hreach, hlt, hhi, .inr ⟨rfl, .inl rfl⟩⟩
    exact g.integrated h hp hreq
  | between xs ys _ _ hpr hq =>
    obtain ⟨m, -, -, -, hadj, -⟩ := B.seamless_append.mp h
    have hp := construct_of_post hloc hpred hsucc hs ha hne hle (.inl (hreach.trans hadj.ge))
    have g : GoodSplit B xs predSeg (succSeg :: ys)
        ⟨xs.length, xs.length + 1, min s a, max s a⟩ :=
      ⟨rfl, hle, hreach, hlt, hhi, .inl ⟨rfl, by simp⟩⟩
    exact g.integrated h hp hreq

/-- Regular requests are integrated. -/
theorem integrated_of_regular (h : B.Seamless B.lo B.hi segs) (hne : segs ≠ [])
    (hstart : ∀ s ∈ start, B.lo ≤ s ∧ s ≤ B.hi) (hafter : ∀ a ∈ after, B.lo ≤ a ∧ a ≤ B.hi)
    (hdiff : ∀ s ∈ start, ∀ a ∈ after, s ≠ a) (hreg : B.Regular segs start after) :
    ∃ r, B.splitSplice checked segs start after = some r ∧ B.Integrated segs start after r := by
  obtain ⟨pred, succ, predSeg, succSeg, hloc, hpred, hsucc, hat⟩ :=
    exists_located (B := B) checked hne (B.separator start after)
  match start, after, hstart, hafter, hdiff, hreg, hloc, hat with
  | some s, some a, hstart, hafter, hdiff, hreg, hloc, hat =>
    obtain ⟨hslo, hshi⟩ := hstart s rfl
    obtain ⟨halo, hahi⟩ := hafter a rfl
    obtain ⟨hmem, hle, hreach, hlo⟩ := hat.predSeg_spec h hslo hshi
    have hdiff : s ≠ a := hdiff s rfl a rfl
    rcases lt_or_gt_of_ne hdiff with hlt | hgt
    · exact hat.integrated h hloc hpred hsucc rfl rfl hdiff (min_eq_left hlt.le)
        (max_eq_right hlt.le) hle hreach hahi (fun hsep => le_antisymm hle hsep)
        ⟨(min_eq_left hlt.le).symm, (max_eq_right hlt.le).symm⟩
    · -- reversed: the predecessor must not start within the new segment
      have hinside : B.start predSeg ≤ a := by
        by_contra hnot
        rcases hreg with hlt | hreg
        · exact absurd hlt hgt.not_gt
        · have hsep : s ≤ B.start predSeg :=
            not_lt.mp fun hlt => hreg predSeg hmem ⟨not_le.mp hnot, hlt⟩
          exact hnot ((hlo hsep).trans_le halo)
      exact hat.integrated h hloc hpred hsucc rfl rfl hdiff (min_eq_right hgt.le)
        (max_eq_left hgt.le) hinside (hgt.le.trans hreach) hshi
        (fun hsep => absurd (hgt.trans_le (hsep.trans hinside)) (lt_irrefl _))
        ⟨(min_eq_right hgt.le).symm, (max_eq_left hgt.le).symm⟩
  | some s, none, hstart, _, _, hreg, hloc, hat =>
    obtain ⟨hslo, hshi⟩ := hstart s rfl
    obtain ⟨-, hle, hreach, -⟩ := hat.predSeg_spec h hslo hshi
    obtain ⟨seg, hseg, hcov, hlt, hend⟩ := hat.inferAfter_spec h hslo hreg
    exact hat.integrated h hloc hpred hsucc rfl hend hlt.ne (min_eq_left hlt.le)
      (max_eq_right hlt.le) hle hreach (h.bounds hseg).2.2 (fun hsep => le_antisymm hle hsep)
      ⟨rfl, seg, hseg, hcov, hlt, rfl⟩
  | none, some a, _, hafter, _, hreg, hloc, hat =>
    obtain ⟨halo, hahi⟩ := hafter a rfl
    obtain ⟨hmem, hle, hreach, hlo⟩ := hat.predSeg_spec h halo hahi
    have hlt : B.start predSeg < a := by
      rcases lt_or_eq_of_le hle with hlt | heq
      · exact hlt
      · exact absurd ((hlo heq.ge).symm.trans heq) (ne_of_lt hreg)
    have hinfer : B.inferStart (B.separator none (some a)) predSeg = B.start predSeg := by
      rw [inferStart, if_neg (not_lt.mpr hreach)]
    exact hat.integrated h hloc hpred hsucc hinfer rfl hlt.ne (min_eq_left hlt.le)
      (max_eq_right hlt.le) le_rfl (h.bounds hmem).2.1.le hahi (fun _ => rfl)
      ⟨rfl, predSeg, hmem, hlt, hreach, rfl⟩
  | none, none, _, _, _, _, hloc, hat =>
    obtain ⟨hmem, hle, hreach, -⟩ := hat.predSeg_spec h h.le le_rfl
    obtain ⟨-, hlt, hhi⟩ := h.bounds hmem
    have hinfer : B.inferStart (B.separator none none) predSeg = B.start predSeg := by
      rw [inferStart, if_neg (not_lt.mpr hreach)]
    obtain ⟨rfl, hlast⟩ := Located.of_hi hat h
    have hend : B.inferAfter (B.separator none none) succSeg = B.after succSeg := by
      rw [inferAfter, if_neg (not_lt.mpr hle)]
    exact hat.integrated h hloc hpred hsucc hinfer hend hlt.ne (min_eq_left hlt.le)
      (max_eq_right hlt.le) le_rfl hlt.le hhi (fun _ => rfl) ⟨succSeg, hlast, rfl, rfl⟩

theorem bounds_of_construct {s a : ORD}
    (hloc : B.locate checked segs (B.separator start after) = some (pred, succ))
    (hpred : segs[pred]? = some predSeg) (hsucc : segs[succ]? = some succSeg)
    (hs : start.getD (B.inferStart (B.separator start after) predSeg) = s)
    (ha : after.getD (B.inferAfter (B.separator start after) succSeg) = a)
    (hp : B.construct checked segs start after = some p) :
    p.pred = pred ∧ p.start = min s a ∧ p.after = max s a := by
  rw [construct_eq hloc hpred hsucc hs ha] at hp
  obtain ⟨-, -, hp⟩ := Option.bind_eq_some_iff.mp hp
  obtain ⟨-, -, hp⟩ := Option.bind_eq_some_iff.mp hp
  obtain ⟨-, -, hp⟩ := Option.bind_eq_some_iff.mp hp
  obtain ⟨-, -, hp⟩ := Option.bind_eq_some_iff.mp hp
  cases hp
  exact ⟨rfl, rfl, rfl⟩

theorem not_integrated_of_empty {s : ORD} (hslo : B.lo ≤ s) (hshi : s ≤ B.hi)
    (hempty : ∀ p, B.construct checked segs start after = some p → p.start = s ∧ p.after = s)
    (hr : B.splitSplice checked segs start after = some r) : ¬ B.Integrated segs start after r := by
  obtain ⟨p, left, right, hp, hsegs, -⟩ := exists_segments_eq hr
  obtain ⟨hs, ha⟩ := hempty p hp
  rintro ⟨hseamless, -⟩
  rw [hsegs] at hseamless
  obtain ⟨-, hlt, -⟩ := hseamless.bounds (s := B.createSeg p.start p.after) (by simp)
  rw [hs, ha, B.start_createSeg _ _ hslo le_rfl hshi, B.after_createSeg _ _ hslo le_rfl hshi] at hlt
  exact lt_irrefl _ hlt

/-- Irregular requests are not integrated, whether or not the assertions are compiled in. -/
theorem not_integrated_of_not_regular (h : B.Seamless B.lo B.hi segs) (hne : segs ≠ [])
    (hstart : ∀ s ∈ start, B.lo ≤ s ∧ s ≤ B.hi) (hafter : ∀ a ∈ after, B.lo ≤ a ∧ a ≤ B.hi)
    (hreg : ¬ B.Regular segs start after) (hr : B.splitSplice checked segs start after = some r) :
    ¬ B.Integrated segs start after r := by
  obtain ⟨pred, succ, predSeg, succSeg, hloc, hpred, hsucc, hat⟩ :=
    exists_located (B := B) checked hne (B.separator start after)
  match start, after, hstart, hafter, hreg, hr, hloc, hat with
  | some s, some a, hstart, hafter, hreg, hr, hloc, hat =>
    obtain ⟨hslo, hshi⟩ := hstart s rfl
    obtain ⟨halo, hahi⟩ := hafter a rfl
    simp only [Regular, not_or, not_lt, not_forall, not_not] at hreg
    obtain ⟨hle, seg, hseg, hafter, hbefore⟩ := hreg
    -- the predecessor starts within the new segment, yet its predecessors are left as they are
    have hwithin : a < B.start predSeg := by
      rcases hat.start_le_or_le h hseg with hle | hle
      · exact hafter.trans_le hle
      · exact absurd hbefore (not_lt.mpr hle)
    obtain ⟨p, left, right, hp, hsegs, hleft⟩ := exists_segments_eq hr
    obtain ⟨rfl, hstart, hend⟩ := bounds_of_construct hloc hpred hsucc rfl rfl hp
    replace hstart : p.start = a := hstart.trans (min_eq_right hle)
    replace hend : p.after = s := hend.trans (max_eq_left hle)
    rintro ⟨hseamless, -⟩
    rw [hsegs, hleft predSeg hpred (hstart ▸ hwithin.not_gt)] at hseamless
    obtain ⟨m, hm, hnew, -⟩ := B.seamless_append.mp hseamless
    rw [hstart, hend, B.start_createSeg _ _ halo hle hshi] at hnew
    obtain ⟨hlen, hget⟩ := List.getElem?_eq_some_iff.mp hpred
    rw [← take_append_drop p.pred segs, drop_eq_getElem_cons hlen, hget] at h
    obtain ⟨m', hm', hold, -⟩ := B.seamless_append.mp h
    exact hwithin.ne (hnew.trans ((hm.end_unique hm').trans hold.symm))
  | some s, none, hstart, _, hreg, hr, hloc, hat =>
    obtain ⟨hslo, hshi⟩ := hstart s rfl
    obtain rfl : s = B.hi := le_antisymm hshi (not_lt.mp hreg)
    obtain ⟨rfl, -⟩ := Located.of_hi hat h
    obtain ⟨hmem, hle, hreach, -⟩ := hat.predSeg_spec h hslo le_rfl
    have hend : B.inferAfter (B.separator (some B.hi) none) succSeg = B.hi := by
      rw [inferAfter, if_neg (not_lt.mpr hle)]
      exact le_antisymm (h.bounds hmem).2.2 hreach
    refine not_integrated_of_empty hslo le_rfl (fun p hp => ?_) hr
    obtain ⟨-, hs, ha⟩ := bounds_of_construct hloc hpred hsucc rfl hend hp
    exact ⟨hs.trans (min_self _), ha.trans (max_self _)⟩
  | none, some a, _, hafter, hreg, hr, hloc, hat =>
    obtain ⟨halo, hahi⟩ := hafter a rfl
    obtain rfl : a = B.lo := le_antisymm (not_lt.mp hreg) halo
    obtain ⟨hmem, hle, hreach, -⟩ := hat.predSeg_spec h le_rfl hahi
    have hinfer : B.inferStart (B.separator none (some B.lo)) predSeg = B.lo := by
      rw [inferStart, if_neg (not_lt.mpr hreach)]
      exact le_antisymm hle (h.bounds hmem).1
    refine not_integrated_of_empty le_rfl hahi (fun p hp => ?_) hr
    obtain ⟨-, hs, ha⟩ := bounds_of_construct hloc hpred hsucc hinfer rfl hp
    exact ⟨hs.trans (min_self _), ha.trans (max_self _)⟩
  | none, none, _, _, hreg, _, _, _ => exact absurd trivial hreg

/-- **Split-Splice integrates exactly the regular requests**, in builds with and without
assertions. -/
theorem integrated_iff (h : B.Seamless B.lo B.hi segs) (hne : segs ≠ [])
    (hstart : ∀ s ∈ start, B.lo ≤ s ∧ s ≤ B.hi) (hafter : ∀ a ∈ after, B.lo ≤ a ∧ a ≤ B.hi)
    (hdiff : ∀ s ∈ start, ∀ a ∈ after, s ≠ a) :
    (∃ r, B.splitSplice checked segs start after = some r ∧ B.Integrated segs start after r) ↔
      B.Regular segs start after := by
  constructor
  · rintro ⟨r, hr, hint⟩
    by_contra hreg
    exact not_integrated_of_not_regular h hne hstart hafter hreg hr hint
  · exact integrated_of_regular h hne hstart hafter hdiff

end Binding

end Lumiera.Lib.SplitSplice
