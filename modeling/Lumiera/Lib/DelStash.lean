import Mathlib.Data.List.Nodup

/-! # Collection of deleter functions (`lib/del-stash.hpp`)

Memorises the addresses of objects to be deleted, each together with its deleter function. An entry
remains in the collection after deletion, yet its target is set to NULL then. What the deleter does
is left to the user: the operations here tell the addresses passed to it, in order. -/

namespace Lumiera.Lib

variable {A : Type} [DecidableEq A]

/-- The killers, by their target; `none` when the target was killed already. -/
structure DelStash (A : Type) where
  killers : List (Option A)

namespace DelStash

/-- Nothing registered. -/
def empty : DelStash A := ⟨[]⟩

/-- The objects still to be deleted. -/
def targets (s : DelStash A) : List A := s.killers.filterMap id

/-- Is there an active entry for this address? -/
def isRegistered (s : DelStash A) (obj : A) : Bool := s.killers.contains (some obj)

/-- Register an object, which must not be registered already. -/
def manage (s : DelStash A) (obj : A) : Option (DelStash A) :=
  if s.isRegistered obj then none else some ⟨s.killers ++ [some obj]⟩

/-- Trigger the first killer with this target. -/
def trigger (obj : A) : List (Option A) → List A × List (Option A)
  | [] => ([], [])
  | k :: ks =>
    if k = some obj then ([obj], none :: ks)
    else ((trigger obj ks).1, k :: (trigger obj ks).2)

/-- Delete this object: the addresses deleted, and the collection thereafter. -/
def kill (s : DelStash A) (obj : A) : Option (List A × DelStash A) :=
  let (deleted, killers) := trigger obj s.killers
  let s' : DelStash A := ⟨killers⟩
  if s'.isRegistered obj then none else some (deleted, s')

/-- Delete all objects still registered, from the most recent one backwards. -/
def killAll (s : DelStash A) : List A × DelStash A :=
  (s.targets.reverse, ⟨s.killers.map fun _ => none⟩)

variable {s s' : DelStash A} {obj : A}

theorem isRegistered_iff : s.isRegistered obj = true ↔ obj ∈ s.targets := by
  simp [isRegistered, targets]

theorem manage_eq_some (h : s.manage obj = some s') : obj ∉ s.targets ∧ s'.targets = s.targets ++ [obj] := by
  unfold manage at h
  split at h
  · cases h
  · next hreg =>
      cases h
      exact ⟨fun hmem => hreg (isRegistered_iff.mpr hmem), by simp [targets]⟩

theorem trigger_eq (obj : A) (ks : List (Option A)) (h : (ks.filterMap id).Nodup) :
    (trigger obj ks).1 = (if obj ∈ ks.filterMap id then [obj] else []) ∧
      (trigger obj ks).2.filterMap id = (ks.filterMap id).filter (· ≠ obj) := by
  induction ks with
  | nil => exact ⟨rfl, rfl⟩
  | cons k ks ih =>
    cases k with
    | none => simpa [trigger] using ih h
    | some a =>
      have hcons : (some a :: ks).filterMap id = a :: ks.filterMap id := rfl
      rw [hcons] at h ⊢
      obtain ⟨hnot, hrest⟩ := List.nodup_cons.mp h
      obtain ⟨hdel, hkeep⟩ := ih hrest
      by_cases ha : a = obj
      · subst ha
        have hall : (ks.filterMap id).filter (· ≠ a) = ks.filterMap id := by
          rw [List.filter_eq_self]
          intro x hx
          have hne : x ≠ a := fun heq => hnot (heq ▸ hx)
          simpa using hne
        rw [if_pos List.mem_cons_self, List.filter_cons_of_neg (by simp), hall, trigger,
          if_pos rfl]
        exact ⟨rfl, rfl⟩
      · have hne : some a ≠ some obj := fun heq => ha (Option.some.inj heq)
        have hmem : obj ∈ a :: ks.filterMap id ↔ obj ∈ ks.filterMap id := by
          simp [Ne.symm ha]
        rw [List.filter_cons_of_pos (by simpa using ha), trigger, if_neg hne, ← hkeep]
        simp only [hmem]
        exact ⟨hdel, rfl⟩

theorem kill_eq_some (hs : s.targets.Nodup) {deleted : List A}
    (h : s.kill obj = some (deleted, s')) :
    deleted = (if obj ∈ s.targets then [obj] else []) ∧
      s'.targets = s.targets.filter (· ≠ obj) := by
  obtain ⟨hdel, hkeep⟩ := trigger_eq obj s.killers hs
  unfold kill at h
  dsimp only at h
  split at h
  · cases h
  · cases h
    exact ⟨hdel, hkeep⟩

end DelStash

end Lumiera.Lib
