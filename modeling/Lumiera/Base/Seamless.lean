import Mathlib.Order.Lattice

/-! # Seamless segmentations of an ordered axis

A list of segments is **seamless** from `lo` to `hi` when it starts at `lo`, every segment is a
non-empty interval starting where the previous one ended, and the last one ends at `hi`. Such a
list assigns to every point of the axis the payload of the segment covering it.

Placing a new segment means to cut off what lies before it, and what lies after it; the segment
straddling the cut is truncated. `splice_seamless` and `payloadAt_splice_of_outside` say what this
is good for: the result is seamless again, and nothing changes outside of the new segment. -/

namespace Lumiera

open List

universe u v w

/-- How segments of type `SEG` lay on the axis `ORD` between `lo` and `hi`, and how to obtain a
part of a segment, carrying the same payload. -/
structure Carving (ORD : Type u) (SEG : Type v) (PAY : Type w) [LinearOrder ORD] where
  /-- First point of the axis. -/
  lo : ORD
  /-- End of the axis (exclusive). -/
  hi : ORD
  /-- First point of a segment. -/
  start : SEG → ORD
  /-- Point after the end of a segment. -/
  after : SEG → ORD
  /-- What the segment carries. -/
  payload : SEG → PAY
  /-- `trunc a b s`: the same content as `s`, now spanning from `a` to `b`. -/
  trunc : ORD → ORD → SEG → SEG
  start_trunc : ∀ a b s, lo ≤ a → a ≤ b → b ≤ hi → start (trunc a b s) = a
  after_trunc : ∀ a b s, lo ≤ a → a ≤ b → b ≤ hi → after (trunc a b s) = b
  payload_trunc : ∀ a b s, payload (trunc a b s) = payload s

namespace Carving

variable {ORD : Type u} {SEG : Type v} {PAY : Type w} [LinearOrder ORD]
variable (C : Carving ORD SEG PAY)

/-! ## Seamless lists -/

/-- The segments follow each other without gap or overlap from `a` to `b`, and none is empty. -/
def Seamless : ORD → ORD → List SEG → Prop
  | a, b, [] => a = b
  | a, b, s :: segs => C.start s = a ∧ C.start s < C.after s ∧ Seamless (C.after s) b segs

variable {xs ys : List SEG}

theorem seamless_append {a b : ORD} : C.Seamless a b (xs ++ ys) ↔ ∃ m, C.Seamless a m xs ∧ C.Seamless m b ys := by
  induction xs generalizing a with
  | nil => simp [Seamless]
  | cons s segs ih => simp only [cons_append, Seamless, ih, and_assoc, exists_and_left]

variable {C} {a b : ORD} {segs : List SEG}

theorem Seamless.le (h : C.Seamless a b segs) : a ≤ b := by
  induction segs generalizing a with
  | nil => exact le_of_eq h
  | cons s segs ih =>
    obtain ⟨rfl, hlt, hrest⟩ := h
    exact le_trans hlt.le (ih hrest)

variable {s : SEG}

theorem Seamless.bounds (h : C.Seamless a b segs) (hs : s ∈ segs) :
    a ≤ C.start s ∧ C.start s < C.after s ∧ C.after s ≤ b := by
  obtain ⟨xs, ys, rfl⟩ := append_of_mem hs
  obtain ⟨m, hxs, rfl, hlt, hys⟩ := (C.seamless_append).mp h
  exact ⟨hxs.le, hlt, hys.le⟩

theorem Seamless.end_unique {b' : ORD} (h : C.Seamless a b segs) (h' : C.Seamless a b' segs) : b = b' := by
  induction segs generalizing a with
  | nil => exact (Eq.symm h).trans h'
  | cons s segs ih => exact ih h.2.2 h'.2.2

/-! ## Lookup -/

variable (C) in
/-- The payload of the segment covering the point `t`: the first one which ends after `t`. -/
def payloadAt (segs : List SEG) (t : ORD) : Option PAY :=
  (segs.find? (t < C.after ·)).map C.payload

variable {m t : ORD}

theorem payloadAt_append_right (h : C.Seamless a m xs) (ht : m ≤ t) :
    C.payloadAt (xs ++ ys) t = C.payloadAt ys t := by
  have hnone : xs.find? (t < C.after ·) = none := by
    rw [find?_eq_none]
    intro s hs
    simpa using le_trans (h.bounds hs).2.2 ht
  rw [payloadAt, payloadAt, find?_append, hnone, Option.none_or]

theorem payloadAt_append_left (h : C.Seamless a m xs) (hlo : a ≤ t) (ht : t < m) :
    C.payloadAt (xs ++ ys) t = C.payloadAt xs t := by
  induction xs generalizing a with
  | nil => exact absurd ((le_of_eq (Eq.symm h)).trans hlo) (not_le.mpr ht)
  | cons s segs ih =>
    obtain ⟨-, -, hrest⟩ := h
    by_cases hs : t < C.after s
    · simp [payloadAt, hs]
    · have := ih hrest (not_lt.mp hs)
      simpa [payloadAt, hs] using this

/-! ## Cutting -/

variable (C)

/-- What lies before the point `b`. -/
def cutBefore (b : ORD) : List SEG → List SEG
  | [] => []
  | s :: segs =>
    if C.after s ≤ b then s :: cutBefore b segs
    else if C.start s < b then [C.trunc (C.start s) b s]
    else []

/-- What lies after the point `b`. -/
def cutAfter (b : ORD) : List SEG → List SEG
  | [] => []
  | s :: segs =>
    if C.after s ≤ b then cutAfter b segs
    else if C.start s < b then C.trunc b (C.after s) s :: segs
    else s :: segs

/-- Place a segment, replacing whatever was there before. -/
def splice (new : SEG) (segs : List SEG) : List SEG :=
  C.cutBefore (C.start new) segs ++ new :: C.cutAfter (C.after new) segs

variable {C} {c : ORD}

theorem cutBefore_append (h : ∀ s ∈ xs, C.after s ≤ c) : C.cutBefore c (xs ++ ys) = xs ++ C.cutBefore c ys := by
  induction xs with
  | nil => rfl
  | cons s segs ih =>
    rw [cons_append, cutBefore, if_pos (h s mem_cons_self),
      ih fun t ht => h t (mem_cons_of_mem _ ht), cons_append]

theorem cutAfter_append (h : ∀ s ∈ xs, C.after s ≤ c) : C.cutAfter c (xs ++ ys) = C.cutAfter c ys := by
  induction xs with
  | nil => rfl
  | cons s segs ih =>
    rw [cons_append, cutAfter, if_pos (h s mem_cons_self),
      ih fun t ht => h t (mem_cons_of_mem _ ht)]

theorem Seamless.cutBefore_eq_nil (h : C.Seamless a b segs) (hc : c ≤ a) : C.cutBefore c segs = [] := by
  cases segs with
  | nil => rfl
  | cons s segs =>
    obtain ⟨rfl, hlt, -⟩ := h
    rw [cutBefore, if_neg (not_le.mpr (lt_of_le_of_lt hc hlt)), if_neg (not_lt.mpr hc)]

theorem Seamless.cutAfter_eq_self (h : C.Seamless a b segs) (hc : c ≤ a) : C.cutAfter c segs = segs := by
  cases segs with
  | nil => rfl
  | cons s segs =>
    obtain ⟨rfl, hlt, -⟩ := h
    rw [cutAfter, if_neg (not_le.mpr (lt_of_le_of_lt hc hlt)), if_neg (not_lt.mpr hc)]

theorem Seamless.cutBefore (h : C.Seamless a b segs) (ha : C.lo ≤ a) (hb : b ≤ C.hi)
    (hac : a ≤ c) (hcb : c ≤ b) : C.Seamless a c (C.cutBefore c segs) := by
  induction segs generalizing a with
  | nil => exact le_antisymm hac (hcb.trans (le_of_eq h.symm))
  | cons s segs ih =>
    obtain ⟨rfl, hlt, hrest⟩ := h
    rw [Carving.cutBefore]
    by_cases hkeep : C.after s ≤ c
    · rw [if_pos hkeep]
      exact ⟨rfl, hlt, ih hrest (ha.trans hlt.le) hkeep⟩
    rw [if_neg hkeep]
    by_cases hcut : C.start s < c
    · rw [if_pos hcut, Seamless, C.start_trunc _ _ _ ha hcut.le (hcb.trans hb),
        C.after_trunc _ _ _ ha hcut.le (hcb.trans hb)]
      exact ⟨rfl, hcut, rfl⟩
    · rw [if_neg hcut]
      exact le_antisymm hac (not_lt.mp hcut)

theorem Seamless.cutAfter (h : C.Seamless a b segs) (ha : C.lo ≤ a) (hb : b ≤ C.hi)
    (hac : a ≤ c) (hcb : c ≤ b) : C.Seamless c b (C.cutAfter c segs) := by
  induction segs generalizing a with
  | nil => exact le_antisymm hcb ((le_of_eq h.symm).trans hac)
  | cons s segs ih =>
    obtain ⟨rfl, hlt, hrest⟩ := h
    rw [Carving.cutAfter]
    by_cases hdrop : C.after s ≤ c
    · rw [if_pos hdrop]
      exact ih hrest (ha.trans hlt.le) hdrop
    rw [if_neg hdrop]
    have hcs : c < C.after s := not_le.mp hdrop
    by_cases hcut : C.start s < c
    · have hend : C.after s ≤ C.hi := hrest.le.trans hb
      rw [if_pos hcut, Seamless, C.start_trunc _ _ _ (ha.trans hac) hcs.le hend,
        C.after_trunc _ _ _ (ha.trans hac) hcs.le hend]
      exact ⟨rfl, hcs, hrest⟩
    · rw [if_neg hcut]
      exact ⟨le_antisymm hac (not_lt.mp hcut), hlt, hrest⟩

variable (C) in
/-- A segment which is a part of one of the given segments, with the payload of that one. -/
def PartOf (segs : List SEG) (s : SEG) : Prop :=
  ∃ o ∈ segs, C.payload s = C.payload o ∧ C.start o ≤ C.start s ∧ C.after s ≤ C.after o

theorem PartOf.cons {o : SEG} (h : C.PartOf segs s) : C.PartOf (o :: segs) s := by
  obtain ⟨p, hp, hpart⟩ := h
  exact ⟨p, mem_cons_of_mem _ hp, hpart⟩

theorem partOf_of_mem (h : s ∈ segs) : C.PartOf segs s := ⟨s, h, rfl, le_rfl, le_rfl⟩

theorem Seamless.partOf_cutBefore (h : C.Seamless a b segs) (ha : C.lo ≤ a) (hcb : c ≤ C.hi)
    (hs : s ∈ C.cutBefore c segs) : C.PartOf segs s := by
  induction segs generalizing a with
  | nil => cases hs
  | cons o segs ih =>
    obtain ⟨rfl, hlt, hrest⟩ := h
    rw [Carving.cutBefore] at hs
    split_ifs at hs with hkeep hcut
    · rcases mem_cons.mp hs with rfl | hmem
      · exact partOf_of_mem mem_cons_self
      · exact (ih hrest (ha.trans hlt.le) hmem).cons
    · obtain rfl := mem_singleton.mp hs
      refine ⟨o, mem_cons_self, C.payload_trunc _ _ _, ?_, ?_⟩
      · rw [C.start_trunc _ _ _ ha hcut.le hcb]
      · rw [C.after_trunc _ _ _ ha hcut.le hcb]
        exact (not_le.mp hkeep).le
    · cases hs

theorem Seamless.partOf_cutAfter (h : C.Seamless a b segs) (hb : b ≤ C.hi) (hc : C.lo ≤ c)
    (hs : s ∈ C.cutAfter c segs) : C.PartOf segs s := by
  induction segs generalizing a with
  | nil => cases hs
  | cons o segs ih =>
    obtain ⟨rfl, hlt, hrest⟩ := h
    rw [Carving.cutAfter] at hs
    split_ifs at hs with hdrop hcut
    · exact (ih hrest hs).cons
    · rcases mem_cons.mp hs with rfl | hmem
      · have hle : c ≤ C.after o := (not_le.mp hdrop).le
        refine ⟨o, mem_cons_self, C.payload_trunc _ _ _, ?_, ?_⟩
        · rw [C.start_trunc _ _ _ hc hle (hrest.le.trans hb)]
          exact hcut.le
        · rw [C.after_trunc _ _ _ hc hle (hrest.le.trans hb)]
      · exact partOf_of_mem (mem_cons_of_mem _ hmem)
    · exact partOf_of_mem hs

theorem Seamless.payloadAt_cutBefore (h : C.Seamless a b segs) (ha : C.lo ≤ a) (hc : c ≤ C.hi) (hat : a ≤ t)
    (ht : t < c) : C.payloadAt (C.cutBefore c segs) t = C.payloadAt segs t := by
  induction segs generalizing a with
  | nil => rfl
  | cons s segs ih =>
    obtain ⟨rfl, hlt, hrest⟩ := h
    rw [Carving.cutBefore]
    have hcut : C.start s < c := lt_of_le_of_lt hat ht
    by_cases hkeep : C.after s ≤ c
    · rw [if_pos hkeep]
      by_cases hs : t < C.after s
      · simp [payloadAt, hs]
      · have := ih hrest (ha.trans hlt.le) (not_lt.mp hs)
        simpa [payloadAt, hs] using this
    · have hs : t < C.after s := lt_trans ht (not_le.mp hkeep)
      rw [if_neg hkeep, if_pos hcut]
      simp [payloadAt, hs, C.after_trunc _ _ s ha hcut.le hc, ht, C.payload_trunc]

theorem Seamless.payloadAt_cutAfter (h : C.Seamless a b segs) (hb : b ≤ C.hi) (hc : C.lo ≤ c) (ht : c ≤ t) :
    C.payloadAt (C.cutAfter c segs) t = C.payloadAt segs t := by
  induction segs generalizing a with
  | nil => rfl
  | cons s segs ih =>
    obtain ⟨rfl, hlt, hrest⟩ := h
    rw [Carving.cutAfter]
    by_cases hdrop : C.after s ≤ c
    · have hs : ¬ t < C.after s := not_lt.mpr (hdrop.trans ht)
      rw [if_pos hdrop, ih hrest]
      simp [payloadAt, hs]
    rw [if_neg hdrop]
    by_cases hcut : C.start s < c
    · rw [if_pos hcut]
      have hend := C.after_trunc c (C.after s) s hc (not_le.mp hdrop).le (hrest.le.trans hb)
      by_cases hs : t < C.after s
      · simp [payloadAt, hend, hs, C.payload_trunc]
      · simp [payloadAt, hend, hs]
    · rw [if_neg hcut]

/-! ## Splicing -/

variable {new : SEG}

/-- Splicing keeps the segmentation seamless. -/
theorem splice_seamless (h : C.Seamless C.lo C.hi segs) (hlo : C.lo ≤ C.start new) (hlt : C.start new < C.after new)
    (hhi : C.after new ≤ C.hi) : C.Seamless C.lo C.hi (C.splice new segs) := by
  refine (C.seamless_append).mpr ⟨C.start new, ?_, rfl, hlt, ?_⟩
  · exact h.cutBefore le_rfl le_rfl hlo (hlt.le.trans hhi)
  · exact h.cutAfter le_rfl le_rfl (hlo.trans hlt.le) hhi

/-- Splicing changes nothing outside of the new segment. -/
theorem payloadAt_splice_of_outside (h : C.Seamless C.lo C.hi segs) (hlo : C.lo ≤ C.start new)
    (hlt : C.start new < C.after new) (hhi : C.after new ≤ C.hi) (ht : C.lo ≤ t)
    (hout : ¬ (C.start new ≤ t ∧ t < C.after new)) : C.payloadAt (C.splice new segs) t = C.payloadAt segs t := by
  have hbefore := h.cutBefore le_rfl le_rfl hlo (hlt.le.trans hhi)
  rcases lt_or_ge t (C.start new) with hleft | hright
  · rw [splice, payloadAt_append_left hbefore ht hleft]
    exact h.payloadAt_cutBefore le_rfl (hlt.le.trans hhi) ht hleft
  · have hpast : C.after new ≤ t := not_lt.mp fun hin => hout ⟨hright, hin⟩
    have hnew : C.Seamless (C.start new) (C.after new) [new] := ⟨rfl, hlt, rfl⟩
    rw [splice, payloadAt_append_right hbefore hright, ← singleton_append,
      payloadAt_append_right hnew hpast]
    exact h.payloadAt_cutAfter le_rfl (hlo.trans hlt.le) hpast

theorem partOf_splice (h : C.Seamless C.lo C.hi segs) (hlo : C.lo ≤ C.start new)
    (hlt : C.start new < C.after new) (hhi : C.after new ≤ C.hi)
    (hs : s ∈ C.cutBefore (C.start new) segs ++ C.cutAfter (C.after new) segs) : C.PartOf segs s := by
  rcases mem_append.mp hs with hbefore | hafter
  · exact h.partOf_cutBefore le_rfl (hlt.le.trans hhi) hbefore
  · exact h.partOf_cutAfter le_rfl (hlo.trans hlt.le) hafter

end Carving

end Lumiera
