import Mathlib.Data.List.Basic

/-! # Histories of the objects placed into storage

Storage is taken into use and becomes free again, and in between an object may be constructed in it and
destroyed. The events of one slot form a **history**, which is `Paired` when each object constructed is
destroyed exactly once before the slot becomes free, and nothing is destroyed which was not constructed. A
history is checked by replaying it (`replay`); `paired_of_replay` is the rule which turns a replay into the
property, so that a development only has to state what each operation appends. -/

namespace Lumiera

universe u

/-- What happens to a slot of storage of kind `β`. -/
inductive StorageEvent (β : Type u) where
  /-- an object was constructed -/
  | created (storage : β)
  /-- the constructor raised -/
  | failed (storage : β)
  /-- the destructor was invoked -/
  | destroyed (storage : β)
  /-- the object is abandoned on request, without invoking the destructor -/
  | skipped (storage : β)
  /-- the slot became free -/
  | freed
  deriving DecidableEq, Repr

/-- What is in a slot of storage. -/
inductive StorageContent (β : Type u) where
  | empty
  | filled (storage : β)
  /-- the object is gone, while the slot did not become free yet -/
  | cleared
  deriving DecidableEq, Repr

variable {β : Type u} [DecidableEq β]

/-- The content after an event, if the event may happen. -/
def StorageEvent.next : StorageContent β → StorageEvent β → Option (StorageContent β)
  | .empty, .created storage => some (.filled storage)
  | .empty, .failed _ => some .empty
  | .empty, .freed => some .empty
  | .filled storage, .destroyed storage' => if storage' = storage then some .cleared else none
  | .filled storage, .skipped storage' => if storage' = storage then some .cleared else none
  | .cleared, .freed => some .empty
  | _, _ => none

/-- Replay a history, starting from some content. -/
def replayFrom (content : StorageContent β) (history : List (StorageEvent β)) :
    Option (StorageContent β) :=
  history.foldlM StorageEvent.next content

/-- The content of a slot, according to its history. -/
def replay (history : List (StorageEvent β)) : Option (StorageContent β) := replayFrom .empty history

/-- **Constructions and destructions are paired**: an object constructed is either still there, or it was
destroyed (or abandoned on request) and directly thereafter the slot became free; and a destructor is invoked
on an object only which was constructed just before. -/
structure Paired (history : List (StorageEvent β)) : Prop where
  created : ∀ pre post storage, history = pre ++ .created storage :: post →
    post = [] ∨ (∃ rest, post = .destroyed storage :: .freed :: rest) ∨
      ∃ rest, post = .skipped storage :: .freed :: rest
  destroyed : ∀ pre post storage, history = pre ++ .destroyed storage :: post →
    ∃ before, pre = before ++ [.created storage]

theorem replay_append (history events : List (StorageEvent β)) :
    replay (history ++ events) = (replay history).bind fun content => replayFrom content events := by
  unfold replay replayFrom
  rw [List.foldlM_append]
  rfl

variable {events history : List (StorageEvent β)} {content content' : StorageContent β}

theorem replay_extend (h : replay history = some content) (hevents : replayFrom content events = some content') :
    replay (history ++ events) = some content' := by
  rw [replay_append, h]
  exact hevents

theorem replay_split {pre post : List (StorageEvent β)} (h : replay (pre ++ post) = some content) :
    ∃ mid, replay pre = some mid ∧ replayFrom mid post = some content := by
  rw [replay_append] at h
  exact Option.bind_eq_some_iff.mp h

theorem replayFrom_cons {event : StorageEvent β} (h : replayFrom content (event :: events) = some content') :
    ∃ mid, event.next content = some mid ∧ replayFrom mid events = some content' := by
  exact Option.bind_eq_some_iff.mp h

variable {storage : β}

/-- What may follow on a construction. -/
theorem replayFrom_filled (h : replayFrom (.filled storage) events = some content)
    (hfinal : content ≠ .cleared) : events = [] ∨ (∃ rest, events = .destroyed storage :: .freed :: rest) ∨ ∃ rest,
    events = .skipped storage :: .freed :: rest := by
  have hfreed : ∀ rest, replayFrom .cleared rest = some content → ∃ rest', rest = .freed :: rest' := by
    intro rest hrest
    cases rest with
    | nil => exact absurd (Option.some.inj hrest).symm hfinal
    | cons event rest =>
      obtain ⟨mid, hmid, -⟩ := replayFrom_cons hrest
      cases event with
      | freed => exact ⟨rest, rfl⟩
      | created => cases hmid
      | failed => cases hmid
      | destroyed => cases hmid
      | skipped => cases hmid
  cases events with
  | nil => exact Or.inl rfl
  | cons event events =>
    right
    obtain ⟨mid, hmid, hrest⟩ := replayFrom_cons h
    cases event with
    | created => cases hmid
    | failed => cases hmid
    | freed => cases hmid
    | destroyed storage' =>
      simp only [StorageEvent.next, Option.ite_none_right_eq_some] at hmid
      obtain ⟨rfl, hmid⟩ := hmid
      cases hmid
      obtain ⟨rest, rfl⟩ := hfreed events hrest
      exact Or.inl ⟨rest, rfl⟩
    | skipped storage' =>
      simp only [StorageEvent.next, Option.ite_none_right_eq_some] at hmid
      obtain ⟨rfl, hmid⟩ := hmid
      cases hmid
      obtain ⟨rest, rfl⟩ := hfreed events hrest
      exact Or.inr ⟨rest, rfl⟩

theorem exists_created_of_replay (h : replay history = some (.filled storage)) :
    ∃ before, history = before ++ [.created storage] := by
  rcases List.eq_nil_or_concat history with rfl | ⟨before, event, rfl⟩
  · cases h
  · rw [List.concat_eq_append] at h ⊢
    obtain ⟨mid, -, hlast⟩ := replay_split h
    obtain ⟨mid', hmid', hend⟩ := replayFrom_cons hlast
    cases hend
    refine ⟨before, ?_⟩
    -- only one event leads to a filled slot
    cases mid <;> cases event <;> simp_all [StorageEvent.next]

/-- A history which can be replayed is paired, unless it ends before the slot became free. -/
theorem paired_of_replay (h : replay history = some content) (hfinal : content ≠ .cleared) : Paired history := by
  constructor
  · rintro pre post storage rfl
    obtain ⟨mid, -, hpost⟩ := replay_split h
    obtain ⟨mid', hcreated, hrest⟩ := replayFrom_cons hpost
    cases mid with
    | empty =>
      cases hcreated
      exact replayFrom_filled hrest hfinal
    | filled => cases hcreated
    | cleared => cases hcreated
  · rintro pre post storage rfl
    obtain ⟨mid, hpre, hpost⟩ := replay_split h
    obtain ⟨mid', hdestroyed, -⟩ := replayFrom_cons hpost
    cases mid with
    | empty => cases hdestroyed
    | filled storage' =>
      simp only [StorageEvent.next, Option.ite_none_right_eq_some] at hdestroyed
      obtain ⟨rfl, -⟩ := hdestroyed
      exact exists_created_of_replay hpre
    | cleared => cases hdestroyed

omit [DecidableEq β] in
theorem not_paired_of_failed {rest : List (StorageEvent β)} {storage' : β} :
    ¬ Paired (history ++ .failed storage :: .destroyed storage' :: rest) := by
  intro h
  obtain ⟨before, hbefore⟩ := h.destroyed (history ++ [.failed storage]) rest storage' (by simp)
  have hlast := congrArg List.getLast? hbefore
  simp at hlast

end Lumiera
