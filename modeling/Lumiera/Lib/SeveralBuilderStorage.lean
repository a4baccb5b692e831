import Mathlib.Data.List.TakeDrop
import Lumiera.Lib.SeveralBuilder

/-! # Elements within the storage of a builder

`ArrayBucket.Holds` states that a buffer holds a sequence of elements, each at its index times the spread.
This is carried through the two kinds of re-arrangement: moving the elements one by one into another
buffer, and spreading them out within the same one. In the latter case the elements are moved starting
from the end, so that none is overwritten before it was moved.

All operations are covered by an `Outcome`: either there is a result with some property, or an exception
is raised, but nothing breaks. -/

namespace Lumiera.Lib

open List

/-- The result has the property, or an exception is raised. -/
def Outcome {α : Type} (P : α → Prop) : Except Failure α → Prop
  | .ok a => P a
  | .error (.broken _) => False
  | .error _ => True

namespace Outcome

variable {α β : Type} {P Q : α → Prop} {R : β → Prop} {r : Except Failure α}

theorem bind {f : α → Except Failure β} (h : Outcome P r) (hnext : ∀ a, P a → Outcome R (f a)) :
    Outcome R (r.bind f) := by
  cases r with
  | ok a => exact hnext a h
  | error failure =>
    cases failure with
    | broken breakage => exact h.elim
    | _ => trivial

theorem map {f : α → β} (h : Outcome P r) (hresult : ∀ a, P a → R (f a)) : Outcome R (r.map f) := by
  cases r with
  | ok a => exact hresult a h
  | error failure =>
    cases failure with
    | broken breakage => exact h.elim
    | _ => trivial

theorem imp (h : Outcome P r) (hPQ : ∀ a, P a → Q a) : Outcome Q r := by
  cases r with
  | ok a => exact hPQ a h
  | error failure =>
    cases failure with
    | broken breakage => exact h.elim
    | _ => trivial

theorem ne_broken (h : Outcome P r) (breakage : Breakage) : r ≠ .error (.broken breakage) := by
  rintro rfl
  exact h

end Outcome

theorem TypeTraits.reqSiz_eq (traits : TypeTraits) : traits.reqSiz = traits.size := by
  have hle := Nat.le_of_dvd traits.size_pos traits.alignment_dvd
  have hmul := Nat.div_mul_cancel traits.alignment_dvd
  unfold reqSiz
  simp only [Nat.max_eq_left hle, hmul, lt_irrefl, if_false]

namespace ArrayBucket

variable {conf : Config} {bucket src tar : ArrayBucket} {elms : List (Element conf)}

/-- **The buffer holds the elements**, in order, each at its index times the spread. -/
structure Holds (conf : Config) (bucket : ArrayBucket) (elms : List (Element conf)) : Prop where
  cnt_eq : bucket.cnt = elms.length
  types_eq : bucket.types = elms.map (·.type)
  spread_pos : 0 < bucket.spread
  size_le : ∀ elm ∈ elms, elm.bytes.length ≤ bucket.spread
  fits : bucket.cnt * bucket.spread ≤ bucket.buffSiz
  stored : ∀ i elm, elms[i]? = some elm → StoredAt bucket.mem (i * bucket.spread) elm.bytes

/-! ## A new buffer -/

theorem padding_le {alignment loc : Nat} (hpow : alignment.isPowerOfTwo) (hloc : 8 ∣ loc) :
    alignUp alignment (loc + storageOffset) ≤ loc + storageOffset + alignRes alignment := by
  obtain ⟨k, hk⟩ := hpow
  have hpos : 0 < alignment := hk ▸ Nat.two_pow_pos k
  have hbase : (2 : Nat) ^ 3 ∣ loc + storageOffset := Nat.dvd_add hloc ⟨8, rfl⟩
  unfold alignRes
  by_cases hsmall : k ≤ 3
  · have hdvd : alignment ∣ loc + storageOffset := hk ▸ (pow_dvd_pow 2 hsmall).trans hbase
    rw [alignUp_of_dvd hpos hdvd]
    omega
  · have hdvd : (2 : Nat) ^ 3 ∣ alignment := hk ▸ pow_dvd_pow 2 (by omega)
    have hpad := alignUp_add_le hpos hdvd hbase
    omega

/-- A new buffer is large enough. -/
theorem create_spec (conf : Config) (alloc : Allocator) {cnt spread : Nat} (hcnt : cnt ≠ 0) (hspread : spread ≠ 0) :
    ∃ bucket, create conf alloc cnt spread = .ok bucket ∧ bucket.Holds conf [] ∧ bucket.spread = spread ∧
    cnt * spread ≤ bucket.buffSiz := by
  have hpad := padding_le conf.common.alignment_pow alloc.loc_aligned
  unfold create
  rw [if_neg (not_or.mpr ⟨hcnt, hspread⟩)]
  rw [if_neg (by omega)]
  refine ⟨_, rfl, ?_, rfl, by simp only; omega⟩
  constructor
  case cnt_eq => rfl
  case types_eq => rfl
  case spread_pos => exact Nat.pos_of_ne_zero hspread
  case size_le => simp
  case fits => simp
  case stored => simp

/-! ## Moving elements into a new buffer -/

theorem slot_le {i j spread : Nat} (h : i < j) : i * spread + spread ≤ j * spread := by
  have hle : (i + 1) * spread ≤ j * spread := Nat.mul_le_mul_right _ h
  rwa [Nat.succ_mul] at hle

theorem length_le_amount {type : ElmType} {a b : Nat} {elm : Element conf} (htype : elm.type = type)
    (ha : elm.bytes.length ≤ a) (hb : elm.bytes.length ≤ b) :
    elm.bytes.length ≤
      if conf.common.triviallyCopyable = true then min a b else (conf.traits type).size := by
  split_ifs
  · omega
  · rw [elm.length_bytes, htype]

theorem amount_le {type : ElmType} {a b : Nat} {elm : Element conf} (htype : elm.type = type)
    (ha : elm.bytes.length ≤ a) (hb : elm.bytes.length ≤ b) :
    (if conf.common.triviallyCopyable = true then min a b else (conf.traits type).size) ≤ min a b := by
  split_ifs
  · exact le_rfl
  · rw [← htype, ← elm.length_bytes]
    omega

theorem getElem?_snoc {α : Type} {l : List α} {a e : α} {i : Nat} (h : (l ++ [a])[i]? = some e) :
    l[i]? = some e ∨ (i = l.length ∧ e = a) := by
  rcases Nat.lt_or_ge i l.length with hi | hi
  · rw [getElem?_append_left hi] at h
    exact .inl h
  · rw [getElem?_append_right hi, getElem?_singleton] at h
    split_ifs at h with hzero
    exact .inr ⟨by omega, (Option.some.inj h).symm⟩

/-- Moving the first elements into a buffer with sufficient space and spread. -/
theorem moveElems_spec (hsrc : src.Holds conf elms) (htar : tar.Holds conf [])
    (hsize : ∀ elm ∈ elms, elm.bytes.length ≤ tar.spread)
    (hmoves : ∀ type ∈ src.types, movesProperly conf type = true) {n : Nat}
    (hn : n ≤ elms.length) (hfits : n * tar.spread ≤ tar.buffSiz) :
    ∃ moved, moveElems conf src tar n = .ok moved ∧ moved.Holds conf (elms.take n) ∧
      moved.spread = tar.spread ∧ moved.buffSiz = tar.buffSiz := by
  induction n with
  | zero => exact ⟨tar, rfl, by simpa using htar, rfl, rfl⟩
  | succ n ih =>
    have hslot : n * tar.spread + tar.spread ≤ (n + 1) * tar.spread := slot_le n.lt_succ_self
    obtain ⟨moved, hmoved, hholds, hspread, hbuff⟩ := ih (by omega) (by omega)
    have hlt : n < elms.length := by omega
    obtain ⟨elm, helm⟩ : ∃ elm, elms[n]? = some elm := ⟨_, getElem?_eq_getElem hlt⟩
    have hmem := mem_of_getElem? helm
    have htype : src.types[n]? = some elm.type := by
      rw [hsrc.types_eq, getElem?_map, helm, Option.map_some]
    have hproper := hmoves _ (mem_of_getElem? htype)
    have hle := hsrc.size_le elm hmem
    have hle' : elm.bytes.length ≤ moved.spread := hspread ▸ hsize elm hmem
    have hamount := amount_le (rfl : elm.type = _) hle hle'
    have hsrcSlot : n * src.spread + src.spread ≤ src.cnt * src.spread :=
      slot_le (by rw [hsrc.cnt_eq]; exact hlt)
    have hsrcFits := hsrc.fits
    have htake : elms.take (n + 1) = elms.take n ++ [elm] := by
      rw [take_add_one, helm]
      rfl
    rw [moveElems, hmoved]
    show ∃ moved', moveElem conf n src moved = .ok moved' ∧ _
    unfold moveElem
    rw [htype]
    simp only
    rw [if_neg (not_not.mpr hproper), if_neg (by rw [← hspread] at hslot hfits; omega)]
    refine ⟨_, rfl, ?_, hspread, hbuff⟩
    rw [htake]
    constructor
    case cnt_eq => simp only [length_append, length_take, length_singleton]; omega
    case types_eq =>
      rw [map_append, hholds.types_eq]
      rfl
    case spread_pos => exact hholds.spread_pos
    case size_le =>
      intro e he
      rcases mem_append.mp he with he | he
      · exact hholds.size_le e he
      · rwa [mem_singleton.mp he]
    case fits => rwa [← hspread, ← hbuff] at hfits
    case stored =>
      intro i e he
      rcases getElem?_snoc he with he | ⟨rfl, rfl⟩
      · -- the elements moved before are not overwritten
        have hi := (List.getElem?_eq_some_iff.mp he).1
        rw [length_take] at hi
        have hslot' : i * moved.spread + moved.spread ≤ n * moved.spread := slot_le (by omega)
        have hsmall := hholds.size_le e (mem_of_getElem? he)
        exact (hholds.stored i e he).blit_other (.inl (by omega))
      · rw [length_take_of_le (by omega)]
        exact (hsrc.stored _ _ helm).blit (length_le_amount rfl hle hle')

/-! ## Spreading out the elements -/

/-- The elements up to some index are still at their old place, the others at the new one. -/
def Stretched (bucket : ArrayBucket) (elms : List (Element conf)) (oldSpread newSpread i : Nat) : Prop :=
  ∀ j elm, elms[j]? = some elm →
    StoredAt bucket.mem (j * if j ≤ i then oldSpread else newSpread) elm.bytes

/-- Moving one element does not touch those before nor those behind. -/
theorem shiftStorage_spec {oldSpread newSpread i : Nat} (hold : 0 < oldSpread)
    (hlt : oldSpread < newSpread) (hsize : ∀ elm ∈ elms, elm.bytes.length ≤ oldSpread)
    (htypes : ∀ type ∈ bucket.types, movesProperly conf type = true)
    (hi : i + 1 < elms.length) (hfits : elms.length * newSpread ≤ bucket.buffSiz)
    (hstretched : Stretched bucket elms oldSpread newSpread (i + 1)) :
    ∃ mem, shiftStorage conf (i + 1) oldSpread newSpread bucket = .ok { bucket with mem := mem } ∧
      Stretched { bucket with mem := mem } elms oldSpread newSpread i := by
  have hslot : (i + 1) * newSpread + newSpread ≤ elms.length * newSpread := slot_le hi
  have hmono : (i + 1) * oldSpread ≤ (i + 1) * newSpread := Nat.mul_le_mul_left _ hlt.le
  have hproper : (bucket.types[i + 1]?).all (movesProperly conf) = true := by
    cases htype : bucket.types[i + 1]? with
    | none => rfl
    | some type => exact htypes type (mem_of_getElem? htype)
  unfold shiftStorage
  rw [if_neg (by omega), if_neg (by omega), if_neg (not_not.mpr hproper), Nat.min_eq_left hlt.le]
  refine ⟨_, rfl, ?_⟩
  intro j elm helm
  have hlen := hsize elm (mem_of_getElem? helm)
  have hbefore := hstretched j elm helm
  rcases Nat.lt_trichotomy j (i + 1) with hj | rfl | hj
  · -- before: still at the old place
    rw [if_pos (by omega)] at hbefore ⊢
    have hend : j * oldSpread + oldSpread ≤ (i + 1) * oldSpread := slot_le hj
    exact hbefore.blit_other (.inl (by omega))
  · rw [if_pos (by omega)] at hbefore
    rw [if_neg (by omega)]
    exact hbefore.blit hlen
  · -- behind: already at the new place
    rw [if_neg (by omega)] at hbefore ⊢
    have hend : (i + 1) * newSpread + newSpread ≤ j * newSpread := slot_le hj
    exact hbefore.blit_other (.inr (by omega))

/-- Spreading out all elements from the last one down. -/
theorem spreadOut_spec {oldSpread newSpread : Nat} (hold : 0 < oldSpread)
    (hlt : oldSpread < newSpread) (hsize : ∀ elm ∈ elms, elm.bytes.length ≤ oldSpread)
    {i : Nat} (htypes : ∀ type ∈ bucket.types, movesProperly conf type = true)
    (hi : i < elms.length) (hfits : elms.length * newSpread ≤ bucket.buffSiz)
    (hstretched : Stretched bucket elms oldSpread newSpread i) :
    ∃ mem, spreadOut conf oldSpread newSpread i bucket = .ok { bucket with mem := mem } ∧
      Stretched { bucket with mem := mem } elms oldSpread newSpread 0 := by
  induction i generalizing bucket with
  | zero => exact ⟨bucket.mem, rfl, hstretched⟩
  | succ i ih =>
    obtain ⟨mem, hshift, hnext⟩ := shiftStorage_spec hold hlt hsize htypes hi hfits hstretched
    obtain ⟨mem', hrest, hdone⟩ := @ih { bucket with mem := mem } htypes (by omega) hfits hnext
    refine ⟨mem', ?_, hdone⟩
    rw [spreadOut, hshift]
    exact hrest

/-- Adjusting to a larger spread keeps the elements, when there are any. -/
theorem adjustSpread_spec (h : bucket.Holds conf elms) {newSpread : Nat}
    (hlt : bucket.spread < newSpread) (hcnt : 0 < bucket.cnt)
    (hrange : newSpread * bucket.cnt < 2 ^ 64) (hfits : bucket.cnt * newSpread ≤ bucket.buffSiz)
    (htypes : ∀ type ∈ bucket.types, movesProperly conf type = true) :
    ∃ moved, adjustSpread conf newSpread bucket = .ok moved ∧ moved.Holds conf elms ∧
      moved.spread = newSpread ∧ moved.buffSiz = bucket.buffSiz := by
  have hcntRange : bucket.cnt < 2 ^ 64 := (Nat.le_mul_of_pos_left _ (by omega)).trans_lt hrange
  have hlast : size_t (bucket.cnt + (2 ^ 64 - 1)) = bucket.cnt - 1 := by
    unfold size_t
    omega
  have hcomm : newSpread * bucket.cnt = bucket.cnt * newSpread := Nat.mul_comm _ _
  have hfits' : elms.length * newSpread ≤ bucket.buffSiz := h.cnt_eq ▸ hfits
  have hstretched : Stretched bucket elms bucket.spread newSpread (bucket.cnt - 1) := by
    intro j elm helm
    have hj := (List.getElem?_eq_some_iff.mp helm).1
    rw [if_pos (by rw [h.cnt_eq]; omega)]
    exact h.stored j elm helm
  obtain ⟨mem, hspread, hdone⟩ := spreadOut_spec h.spread_pos hlt h.size_le htypes
    (by have := h.cnt_eq; omega) hfits' hstretched
  have henough : ¬ bucket.buffSiz < size_t (newSpread * bucket.cnt) := by
    rw [size_t]
    omega
  unfold adjustSpread
  rw [if_neg henough]
  simp only
  rw [if_pos hlt, hlast, hspread]
  refine ⟨_, rfl, ?_, rfl, rfl⟩
  constructor
  case cnt_eq => exact h.cnt_eq
  case types_eq => exact h.types_eq
  case spread_pos => exact h.spread_pos.trans hlt
  case size_le => exact fun elm helm => (h.size_le elm helm).trans hlt.le
  case fits => exact hfits
  case stored =>
    intro j elm helm
    have hat := hdone j elm helm
    rcases Nat.eq_zero_or_pos j with rfl | hj
    · rw [Nat.zero_mul] at hat ⊢
      exact hat
    · rwa [if_neg (by omega)] at hat

end ArrayBucket

end Lumiera.Lib
