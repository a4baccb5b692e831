import Mathlib.Data.List.Nodup
import Mathlib.Algebra.Order.Ring.Nat

/-! # Sets ordered by a key

The elements of a set are kept in the order of a key, which each of them carries, and two elements with
the same key are equivalent, even if they differ otherwise. An element is not added when there is an
equivalent one. It may be changed in place as long as its key remains. -/

namespace Lumiera

open List

universe u v

variable {α : Type u} {κ : Type v} [LinearOrder κ]

/-- **A set ordered by a key**, with one element at most for each key. -/
structure OrderedSet (key : α → κ) where
  elems : List α
  sorted : elems.Pairwise fun a b => key a < key b

namespace OrderedSet

variable {key : α → κ}

/-! ## Operations -/

/-- No elements. -/
def empty : OrderedSet key := ⟨[], .nil⟩

/-- The element with a given key. -/
def find (s : OrderedSet key) (k : κ) : Option α := s.elems.find? fun x => k == key x

/-- Where to put a further element. -/
def place (key : α → κ) (x : α) : List α → List α
  | [] => [x]
  | y :: ys => if key x < key y then x :: y :: ys else y :: place key x ys

theorem mem_place {x y : α} {ys : List α} : y ∈ place key x ys ↔ y = x ∨ y ∈ ys := by
  induction ys with
  | nil => rw [place, mem_singleton]; simp
  | cons z zs ih =>
    rw [place]
    split
    · exact mem_cons
    · rw [mem_cons, ih, mem_cons]
      exact or_left_comm

theorem sorted_place {x : α} {ys : List α} (h : ys.Pairwise fun a b => key a < key b)
    (hnew : ∀ y ∈ ys, key y ≠ key x) : (place key x ys).Pairwise fun a b => key a < key b := by
  induction ys with
  | nil => exact pairwise_singleton _ _
  | cons z zs ih =>
    obtain ⟨hz, hzs⟩ := pairwise_cons.mp h
    rw [place]
    split
    · next hlt =>
        refine pairwise_cons.mpr ⟨fun y hy => ?_, h⟩
        rcases mem_cons.mp hy with rfl | hy
        · exact hlt
        · exact hlt.trans (hz y hy)
    · next hnot =>
        have hlt : key z < key x := lt_of_le_of_ne (not_lt.mp hnot) (hnew z mem_cons_self)
        refine pairwise_cons.mpr ⟨fun y hy => ?_, ih hzs fun y hy => hnew y (mem_cons_of_mem z hy)⟩
        rcases mem_place.mp hy with rfl | hy
        · exact hlt
        · exact hz y hy

variable {s : OrderedSet key} {k k' : κ} {x y : α}

theorem find_eq_some_iff : s.find k = some x ↔ x ∈ s.elems ∧ key x = k := by
  obtain ⟨elems, hsorted⟩ := s
  unfold find
  induction elems with
  | nil => simp
  | cons z zs ih =>
    obtain ⟨hz, hzs⟩ := pairwise_cons.mp hsorted
    rw [find?_cons, mem_cons]
    by_cases hk : k = key z
    · rw [beq_iff_eq.mpr hk]
      constructor
      · intro h
        cases Option.some.inj h
        exact ⟨.inl rfl, hk.symm⟩
      · rintro ⟨rfl | hx, hkey⟩
        · rfl
        -- no other element has the key of the first one
        · exact absurd (hkey.trans hk) (hz x hx).ne'
    · rw [beq_eq_false_iff_ne.mpr hk]
      refine (ih hzs).trans (and_congr_left fun hkey => ⟨.inr, ?_⟩)
      rintro (rfl | hx)
      · exact absurd hkey.symm hk
      · exact hx

theorem find_eq_none_iff : s.find k = none ↔ ∀ x ∈ s.elems, key x ≠ k := by
  rw [find, find?_eq_none]
  exact forall₂_congr fun x _ => by rw [beq_iff_eq, ne_eq, eq_comm]

theorem key_of_find (h : s.find k = some x) : key x = k := (find_eq_some_iff.mp h).2

theorem nodup_keys (s : OrderedSet key) : (s.elems.map key).Nodup := by
  rw [List.Nodup, pairwise_map]
  exact s.sorted.imp fun h => h.ne

/-- Adds an element, unless there is an equivalent one; whether it was added. -/
def emplace (s : OrderedSet key) (x : α) : OrderedSet key × Bool :=
  match h : s.find (key x) with
  | none => (⟨place key x s.elems, sorted_place s.sorted (find_eq_none_iff.mp h)⟩, true)
  | some _ => (s, false)

/-- Changes the element with a given key, which has to remain. -/
def modify (s : OrderedSet key) (k : κ) (f : α → α) (hf : ∀ x, key x = k → key (f x) = k) : OrderedSet key where
  elems := s.elems.map fun x => if key x = k then f x else x
  sorted := by
    have hkey : ∀ x, key (if key x = k then f x else x) = key x := by
      intro x
      split
      · next h => rw [hf x h, h]
      · rfl
    rw [pairwise_map]
    simpa only [hkey] using s.sorted

/-- Removes the element with a given key. -/
def erase (s : OrderedSet key) (k : κ) : OrderedSet key :=
  ⟨s.elems.filter fun x => !(k == key x), s.sorted.filter _⟩

/-! ## What is found afterwards -/

theorem emplace_of_find (h : s.find (key x) = some y) : s.emplace x = (s, false) := by
  unfold emplace
  split
  · next hnone => rw [hnone] at h; cases h
  · rfl

theorem emplace_snd_of_find (h : s.find (key x) = none) : (s.emplace x).2 = true := by
  unfold emplace
  split
  · rfl
  · next hsome => rw [hsome] at h; cases h

theorem find_emplace (h : s.find (key x) = none) :
    (s.emplace x).1.find k = if k = key x then some x else s.find k := by
  have helems : (s.emplace x).1.elems = place key x s.elems := by
    unfold emplace
    split
    · rfl
    · next hsome => rw [hsome] at h; cases h
  apply Option.ext
  intro y
  rw [find_eq_some_iff, helems, mem_place]
  split
  · next hk =>
      rw [Option.some.injEq, hk]
      constructor
      · rintro ⟨rfl | hy, hkey⟩
        · rfl
        · exact absurd hkey (find_eq_none_iff.mp h y hy)
      · rintro rfl
        exact ⟨.inl rfl, rfl⟩
  · next hk =>
      rw [find_eq_some_iff]
      refine and_congr_left fun hkey => ⟨?_, .inr⟩
      rintro (rfl | hy)
      · exact absurd hkey.symm hk
      · exact hy

theorem find_modify {f : α → α} {hf : ∀ x, key x = k → key (f x) = k} :
    (s.modify k f hf).find k' = if k' = k then (s.find k).map f else s.find k' := by
  apply Option.ext
  intro y
  rw [find_eq_some_iff]
  show y ∈ s.elems.map (fun x => if key x = k then f x else x) ∧ key y = k' ↔ _
  rw [mem_map]
  split
  · next hk =>
      subst hk
      rw [Option.map_eq_some_iff]
      constructor
      · rintro ⟨⟨x, hx, rfl⟩, hkey⟩
        by_cases hxk : key x = k'
        · rw [if_pos hxk]
          exact ⟨x, find_eq_some_iff.mpr ⟨hx, hxk⟩, rfl⟩
        · rw [if_neg hxk] at hkey
          exact absurd hkey hxk
      · rintro ⟨x, hx, rfl⟩
        obtain ⟨hmem, hxk⟩ := find_eq_some_iff.mp hx
        exact ⟨⟨x, hmem, if_pos hxk⟩, hf x hxk⟩
  · next hk =>
      rw [find_eq_some_iff]
      refine and_congr_left fun hkey => ⟨?_, fun hy => ⟨y, hy, if_neg (hkey ▸ hk)⟩⟩
      rintro ⟨x, hx, rfl⟩
      by_cases hxk : key x = k
      · rw [if_pos hxk, hf x hxk] at hkey
        exact absurd hkey.symm hk
      · rw [if_neg hxk]
        exact hx

theorem modify_eq_self {f : α → α} {hf : ∀ x, key x = k → key (f x) = k}
    (h : ∀ x, s.find k = some x → f x = x) : s.modify k f hf = s := by
  have hsame : ∀ x ∈ s.elems, (if key x = k then f x else x) = x := by
    intro x hx
    split
    · next hk => exact h x (find_eq_some_iff.mpr ⟨hx, hk⟩)
    · rfl
  obtain ⟨elems, hsorted⟩ := s
  rw [mk.injEq]
  exact (map_congr_left hsame).trans (map_id' elems)

theorem find_erase : (s.erase k).find k' = if k' = k then none else s.find k' := by
  apply Option.ext
  intro y
  rw [find_eq_some_iff]
  show y ∈ s.elems.filter (fun x => !(k == key x)) ∧ key y = k' ↔ _
  rw [mem_filter, Bool.not_eq_true', beq_eq_false_iff_ne]
  split
  · next hk => exact ⟨fun h => absurd (hk.symm.trans h.2.symm) h.1.2, nofun⟩
  · next hk =>
      rw [find_eq_some_iff]
      exact ⟨fun h => ⟨h.1.1, h.2⟩, fun h => ⟨⟨h.1, fun hkey => hk (h.2.symm.trans hkey.symm)⟩, h.2⟩⟩

end OrderedSet

end Lumiera
