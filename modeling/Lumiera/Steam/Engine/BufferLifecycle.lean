import Lumiera.Steam.Engine.BufferMetadata

/-! # The lifecycle of working buffers

Whenever no constructor raises and no type key is invalidated, constructions and destructions on the
buffers are paired, the entries hold a pointer exactly while their buffer is in use, and type keys
stay as they are (`lifecycle_kept`). Each other operation breaks this immediately. -/

namespace Lumiera.Steam.Engine

open Function

/-- The buffer is in use in this state, in some way. -/
def BufferState.inUse : BufferState → Bool
  | .LOCKED => true
  | .EMITTED => true
  | .BLOCKED => true
  | _ => false

/-- The key of a type, and not of a concrete buffer. -/
def HashVal.isType : HashVal → Bool
  | .buffer _ _ => false
  | _ => true

namespace BufferMetadata

/-- **The lifecycle of buffers is kept**: constructions and destructions are paired, an entry holds a pointer
exactly when the buffer is in use, and a type key stays in state NIL. -/
structure Lifecycle (m : BufferMetadata) : Prop where
  paired : ∀ key, Paired (m.history key)
  pointer : ∀ key e, m.table_ key = some e → e.buffer_.isSome = e.state_.inUse
  typeKey : ∀ key e, m.table_ key = some e → key.isType = true → e.state_ = .NIL

end BufferMetadata

/-! ## The steps which keep the lifecycle -/

/-- Locking this entry will invoke a constructor. -/
def Entry.lockConstructs (e : Entry) (newBuffer : Option Buff) : Bool :=
  e.state_ == .FREE && newBuffer.isSome && nontrivial e.instanceFunc_

/-- Is this entry just a placeholder for a type? -/
def Entry.isTypeKey (e : Entry) : Bool := e.state_ == .NIL && !e.buffer_.isSome

namespace BufferMetadata

/-- Locking a buffer will invoke a constructor, on a new entry or on an existing one which is free. -/
def lockConstructs (m : BufferMetadata) (parentKey : Key) (concreteBuffer : Option Buff)
    (specifics : LocalTag) (onlyNew : Bool) : Bool :=
  match concreteBuffer with
  | none => false
  | some buffer =>
    match Key.forEntry parentKey (some buffer) specifics with
    | .error _ => false
    | .ok newKey =>
      match m.table_ newKey.hashID_ with
      | none => nontrivial newKey.instanceFunc_
      | some existing => !onlyNew && existing.lockConstructs (some buffer)

/-- **No constructor raises and no type key is invalidated** by this operation. -/
def undisturbed (m : BufferMetadata) : BufferOperation → Bool
  | .keyForBuffer parentKey concreteBuffer specifics raises =>
    !(raises && m.lockConstructs parentKey concreteBuffer specifics true)
  | .lock parentKey concreteBuffer specifics onlyNew raises =>
    !(raises && m.lockConstructs parentKey concreteBuffer specifics onlyNew)
  | .markLocked parentKey buffer specifics raises =>
    !(raises && m.lockConstructs parentKey buffer specifics true)
  | .lockEntry key newBuffer raises => !(raises && (m.table_ key).any (·.lockConstructs newBuffer))
  | .invalidate key _ => !(m.table_ key).any Entry.isTypeKey
  | _ => true

end BufferMetadata

/-! ## The invariant -/

variable {buffer : Buff}

namespace Entry

/-- What is in the buffer of an entry; without a handler nothing is known about it. -/
def content (e : Entry) : StorageContent Buff :=
  match e.buffer_ with
  | some buffer => if nontrivial e.instanceFunc_ then .filled buffer else .empty
  | none => .empty

/-- **An entry in proper condition**: state NIL is for type keys, and the pointer corresponds to the state. -/
structure Proper (e : Entry) : Prop where
  type : e.state_ = .NIL ↔ e.hashID_.isType = true
  pointer : e.buffer_.isSome = e.state_.inUse

variable {e : Entry}

@[simp] theorem content_of_free (h : e.buffer_ = none) : e.content = .empty := by
  simp only [content, h]

theorem content_of_raw (h : e.buffer_ = some buffer)
    (hraw : nontrivial e.instanceFunc_ = false) : e.content = .empty := by
  simp only [content, h, hraw, Bool.false_eq_true, if_false]

theorem content_of_nontrivial (h : e.buffer_ = some buffer)
    (hhandler : nontrivial e.instanceFunc_ = true) : e.content = .filled buffer := by
  simp only [content, h, hhandler, if_true]

theorem Proper.free (h : e.Proper) (hfree : e.state_ = .FREE) : e.buffer_ = none := by
  have hpointer := h.pointer
  rw [hfree] at hpointer
  exact Option.isNone_iff_eq_none.mp (by simpa [BufferState.inUse] using hpointer)

theorem Proper.change (h : e.Proper) (hnil : e.state_ ≠ .NIL) (buffer : Option Buff) (state : BufferState)
    (hstate : state ≠ .NIL) (hpointer : buffer.isSome = state.inUse) :
    Proper { e with buffer_ := buffer, state_ := state } := by
  refine ⟨?_, hpointer⟩
  constructor
  · exact fun hsame => absurd hsame hstate
  · exact fun htype => absurd (h.type.mpr htype) hnil

end Entry

/-- **The outcome of an operation on an entry is proper**: it concerns the same key, the entry is in proper
condition, and the events lead from the content before to the content thereafter. -/
structure Outcome.Proper (e : Entry) (done : Outcome) : Prop where
  key : done.entry.toKey = e.toKey
  entry : done.entry.Proper
  events : replayFrom e.content done.events = some done.entry.content

namespace Entry

variable {e : Entry}

theorem Proper.unchanged (h : e.Proper) (raised : Option BufferError) : Outcome.Proper e ⟨e, [], raised⟩ :=
  ⟨rfl, h, rfl⟩

theorem replay_clear (h : e.buffer_ = some buffer) :
    replayFrom e.content ((if nontrivial e.instanceFunc_ then [.destroyed buffer] else []) ++ [.freed]) =
      some .empty := by
  cases hhandler : nontrivial e.instanceFunc_ with
  | true =>
    rw [content_of_nontrivial h hhandler]
    simp [replayFrom, StorageEvent.next]
  | false =>
    rw [content_of_raw h hhandler]
    rfl

/-- **A transition of the state machine** keeps an entry proper; it never comes to invoke a constructor, since
there is no pointer on an entry which is free. -/
theorem Proper.mark (h : e.Proper) (newState : BufferState) (raises : Bool) :
    Outcome.Proper e (e.mark newState raises) := by
  unfold Entry.mark
  by_cases hnil : e.state_ = .NIL
  · rw [if_pos hnil]
    exact h.unchanged _
  rw [if_neg hnil]
  by_cases hallowed : allowedTransition e.state_ newState = true
  · rw [if_pos hallowed]
    cases newState with
    | NIL =>
      cases hstate : e.state_ <;> simp [hstate, allowedTransition] at hallowed
    | FREE =>
      simp only [prepare, invokeEmbeddedDtor_and_clear]
      cases hbuffer : e.buffer_ with
      | none => exact h.unchanged _
      | some buffer => exact ⟨rfl, h.change hnil none .FREE (by decide) rfl, replay_clear hbuffer⟩
    | LOCKED =>
      have hfree : e.state_ = .FREE := by
        cases hstate : e.state_ <;> simp [hstate, allowedTransition] at hallowed ⊢
      simp only [prepare, invokeEmbeddedCtor, h.free hfree]
      exact h.unchanged _
    | EMITTED =>
      have hinUse : e.state_.inUse = true := by
        cases hstate : e.state_ <;> simp [hstate, allowedTransition, BufferState.inUse] at hallowed ⊢
      exact ⟨rfl, h.change hnil e.buffer_ .EMITTED (by decide) (h.pointer.trans hinUse), rfl⟩
    | BLOCKED =>
      have hinUse : e.state_.inUse = true := by
        cases hstate : e.state_ <;> simp [hstate, allowedTransition, BufferState.inUse] at hallowed ⊢
      exact ⟨rfl, h.change hnil e.buffer_ .BLOCKED (by decide) (h.pointer.trans hinUse), rfl⟩
  · rw [if_neg hallowed]
    exact h.unchanged _

theorem lock_free (hfree : e.state_ = .FREE) (newBuffer : Option Buff) (raises : Bool) :
    e.lock newBuffer raises = match newBuffer with
      | none => ⟨{ e with buffer_ := none }, [], some .bufferRequired⟩
      | some buffer =>
        if nontrivial e.instanceFunc_ then
          if raises then
            ⟨{ e with buffer_ := some buffer }, [.failed buffer], some .constructor⟩
          else
            ⟨{ e with buffer_ := some buffer, state_ := .LOCKED }, [.created buffer], none⟩
        else
          ⟨{ e with buffer_ := some buffer, state_ := .LOCKED }, [], none⟩ := by
  obtain ⟨key, state, pointer⟩ := e
  obtain rfl : state = .FREE := hfree
  cases newBuffer with
  | none => rfl
  | some buffer =>
    simp only [lock, mark, prepare, invokeEmbeddedCtor]
    cases nontrivial key.instanceFunc_ <;> cases raises <;> rfl

theorem invokeEmbeddedCtor_of_returns {raises : Bool} (hbuffer : e.buffer_ = some buffer)
    (hraises : (raises && nontrivial e.instanceFunc_) = false) :
    e.invokeEmbeddedCtor raises =
      ⟨e, if nontrivial e.instanceFunc_ then [.created buffer] else [], none⟩ := by
  unfold invokeEmbeddedCtor
  rw [hbuffer]
  cases hhandler : nontrivial e.instanceFunc_ with
  | false => rfl
  | true =>
    have hreturns : raises = false := by
      simpa [hhandler] using hraises
    rw [hreturns]
    rfl

/-- Locking a free entry keeps it proper, unless a constructor raises. -/
theorem Proper.lock (h : e.Proper) {newBuffer : Option Buff} {raises : Bool}
    (hraises : (raises && e.lockConstructs newBuffer) = false) : Outcome.Proper e (e.lock newBuffer raises) := by
  by_cases hfree : e.state_ = .FREE
  · have hempty : e.content = .empty := content_of_free (h.free hfree)
    have hnil : e.state_ ≠ .NIL := by
      rw [hfree]
      decide
    rw [lock_free hfree]
    cases newBuffer with
    | none =>
      -- the pointer was null before
      have hsame : ({ e with buffer_ := none } : Entry) = e := by
        rw [← h.free hfree]
      rw [hsame]
      exact h.unchanged _
    | some buffer =>
      have hlocked := h.change hnil (some buffer) .LOCKED (by decide) rfl
      simp only
      cases hhandler : nontrivial e.instanceFunc_ with
      | false =>
        rw [if_neg Bool.false_ne_true]
        refine ⟨rfl, hlocked, ?_⟩
        have hcontent := content_of_raw
          (e := { e with buffer_ := some buffer, state_ := .LOCKED }) rfl hhandler
        rw [hempty, hcontent]
        rfl
      | true =>
        have hreturns : raises = false := by
          simpa [lockConstructs, hfree, hhandler] using hraises
        rw [if_pos rfl, if_neg (by rw [hreturns]; exact Bool.false_ne_true)]
        refine ⟨rfl, hlocked, ?_⟩
        have hcontent := content_of_nontrivial
          (e := { e with buffer_ := some buffer, state_ := .LOCKED }) rfl hhandler
        rw [hempty, hcontent]
        rfl
  · rw [Entry.lock, if_pos hfree]
    exact h.unchanged _

/-- Invalidating the entry of a concrete buffer keeps it proper. -/
theorem Proper.invalidate (h : e.Proper) (htype : e.isTypeKey = false) (invokeDtor : Bool) :
    Outcome.Proper e (e.invalidate invokeDtor) := by
  have hnil : e.state_ ≠ .NIL := by
    intro hnil
    have hpointer := h.pointer
    simp [isTypeKey, hnil, hpointer, BufferState.inUse] at htype
  refine ⟨rfl, h.change hnil none .FREE (by decide) rfl, ?_⟩
  cases hbuffer : e.buffer_ with
  | none =>
    rw [content_of_free hbuffer]
    simp only [Entry.invalidate, hbuffer]
    rfl
  | some buffer =>
    cases invokeDtor with
    | true =>
      simp only [Entry.invalidate, invokeEmbeddedDtor_and_clear, hbuffer]
      exact replay_clear hbuffer
    | false =>
      simp only [Entry.invalidate, hbuffer]
      cases hhandler : nontrivial e.instanceFunc_ with
      | true =>
        rw [content_of_nontrivial hbuffer hhandler]
        simp [replayFrom, StorageEvent.next]
      | false =>
        rw [content_of_raw hbuffer hhandler]
        rfl

end Entry

/-! ## What each operation preserves -/

namespace BufferMetadata

/-- What is in the buffer of the entry under a key. -/
def content (m : BufferMetadata) (key : HashVal) : StorageContent Buff :=
  ((m.table_ key).map Entry.content).getD .empty

/-- **The invariant of the registry**: entries are in proper condition and stored under their own key, and the
history under each key leads to what is in the buffer now. -/
structure Proper (m : BufferMetadata) : Prop where
  keyed : ∀ key e, m.table_ key = some e → e.hashID_ = key
  entry : ∀ key e, m.table_ key = some e → e.Proper
  history : ∀ key, replay (m.history key) = some (m.content key)

variable {m : BufferMetadata}

variable {key : HashVal} {e : Entry}

theorem content_of_entry (h : m.table_ key = some e) : m.content key = e.content := by
  simp only [content, h, Option.map_some, Option.getD_some]

theorem content_of_unknown (h : m.table_ key = none) : m.content key = .empty := by
  simp only [content, h, Option.map_none, Option.getD_none]

theorem proper_empty (family : Nat) : (empty family).Proper :=
  ⟨fun _ _ h => (nomatch h), fun _ _ h => (nomatch h), fun _ => rfl⟩

/-- The invariant implies the lifecycle. -/
theorem Proper.lifecycle (h : m.Proper) : m.Lifecycle := by
  refine ⟨fun key => ?_, fun key e he => (h.entry key e he).pointer, fun key e he htype => ?_⟩
  · refine paired_of_replay (h.history key) ?_
    unfold content
    cases m.table_ key with
    | none => exact nofun
    | some e =>
      simp only [Option.map_some, Entry.content]
      cases e.buffer_ with
      | none => exact nofun
      | some buffer => cases nontrivial e.instanceFunc_ <;> exact nofun
  · refine (h.entry key e he).type.mpr ?_
    rwa [h.keyed key e he]

theorem commit_table_self (m : BufferMetadata) (done : Outcome) :
    (m.commit done).table_ done.entry.hashID_ = some done.entry :=
  update_self ..

variable {done : Outcome}

theorem commit_table_of_ne (h : key ≠ done.entry.hashID_) : (m.commit done).table_ key = m.table_ key :=
  update_of_ne h ..

theorem Proper.commit (h : m.Proper) (hentry : done.entry.Proper)
    (hevents : replayFrom (m.content done.entry.hashID_) done.events = some done.entry.content) :
    (m.commit done).Proper := by
  refine ⟨fun key e he => ?_, fun key e he => ?_, fun key => ?_⟩
  all_goals by_cases hkey : key = done.entry.hashID_
  · subst hkey
    have hsame := (commit_table_self m done).symm.trans he
    rw [Option.some.inj hsame]
  · exact h.keyed key e ((commit_table_of_ne hkey).symm.trans he)
  · subst hkey
    have hsame := (commit_table_self m done).symm.trans he
    rwa [← Option.some.inj hsame]
  · exact h.entry key e ((commit_table_of_ne hkey).symm.trans he)
  · subst hkey
    have hcontent : (m.commit done).content done.entry.hashID_ = done.entry.content :=
      content_of_entry (commit_table_self m done)
    have hhistory : (m.commit done).history done.entry.hashID_ =
        m.history done.entry.hashID_ ++ done.events := update_self ..
    rw [hcontent, hhistory]
    exact replay_extend (h.history _) hevents
  · have hcontent : (m.commit done).content key = m.content key := by
      rw [content, content, commit_table_of_ne hkey]
    have hhistory : (m.commit done).history key = m.history key := update_of_ne hkey ..
    rw [hcontent, hhistory]
    exact h.history key

theorem Proper.commit_entry (h : m.Proper) (he : m.table_ key = some e)
    (hdone : done.Proper e) : (m.commit done).Proper := by
  refine h.commit hdone.entry ?_
  have hkey : done.entry.hashID_ = key := (congrArg Key.hashID_ hdone.key).trans (h.keyed key e he)
  rw [hkey, content_of_entry he]
  exact hdone.events

theorem Proper.onEntry (h : m.Proper) (key : HashVal) {operation : Entry → Outcome}
    (hoperation : ∀ e, m.table_ key = some e → Outcome.Proper e (operation e)) :
    (m.onEntry key operation).1.Proper := by
  unfold BufferMetadata.onEntry
  cases he : m.table_ key with
  | none => exact h
  | some e => exact h.commit_entry he (hoperation e he)

theorem commit_nil (m : BufferMetadata) (e : Entry) (raised : Option BufferError) :
    m.commit ⟨e, [], raised⟩ = m.setEntry e := by
  unfold BufferMetadata.commit
  simp only [List.append_nil, update_eq_self]
  rfl

theorem Proper.maybeStore (h : m.Proper) {key : Key} (htype : key.hashID_.isType = true) :
    (m.maybeStore key).Proper := by
  unfold BufferMetadata.maybeStore
  split_ifs with hknown
  · exact h
  · have hunknown : m.table_ key.hashID_ = none := by simpa using hknown
    have hentry : (Entry.create key none).Proper := ⟨⟨fun _ => htype, fun _ => rfl⟩, rfl⟩
    have hcontent : m.content (Entry.create key none).hashID_ = .empty := content_of_unknown hunknown
    rw [← commit_nil m _ none]
    refine h.commit hentry ?_
    rw [hcontent]
    rfl

theorem hashID_of_forEntry {parent key : Key} {localTag : LocalTag}
    (h : Key.forEntry parent (some buffer) localTag = .ok key) : key.hashID_.isType = false := by
  unfold Key.forEntry at h
  split_ifs at h
  all_goals
    obtain rfl := Except.ok.inj h
    rfl

variable {raises : Bool}

theorem storeAsLocked_of_returns {key : Key}
    (hraises : (raises && nontrivial key.instanceFunc_) = false) :
    (m.storeAsLocked (.create key (some buffer)) raises).1 =
      m.commit ⟨.create key (some buffer),
        if nontrivial key.instanceFunc_ then [.created buffer] else [], none⟩ := by
  unfold storeAsLocked
  rw [Entry.invokeEmbeddedCtor_of_returns (e := .create key (some buffer)) rfl hraises]
  rfl

/-- Creating the entry of a concrete buffer keeps the invariant, unless a constructor raises. -/
theorem Proper.storeAsLocked (h : m.Proper) {key : Key} (hunknown : m.table_ key.hashID_ = none)
    (hkey : key.hashID_.isType = false) (hraises : (raises && nontrivial key.instanceFunc_) = false) :
    (m.storeAsLocked (.create key (some buffer)) raises).1.Proper := by
  rw [storeAsLocked_of_returns hraises]
  have hentry : (Entry.create key (some buffer)).Proper := by
    refine ⟨⟨fun hnil => (nomatch hnil), fun htype => ?_⟩, rfl⟩
    rw [show (Entry.create key (some buffer)).hashID_ = key.hashID_ from rfl, hkey] at htype
    cases htype
  have hcontent : m.content (Entry.create key (some buffer)).hashID_ = .empty := content_of_unknown hunknown
  refine h.commit hentry ?_
  rw [hcontent]
  cases hhandler : nontrivial key.instanceFunc_ with
  | false => rw [Entry.content_of_raw (e := .create key (some buffer)) rfl hhandler]; rfl
  | true => rw [Entry.content_of_nontrivial (e := .create key (some buffer)) rfl hhandler]; rfl

variable {parentKey : Key} {concreteBuffer : Option Buff} {specifics : LocalTag}

/-- Locking a buffer keeps the invariant, unless a constructor raises. -/
theorem Proper.lock (h : m.Proper) {onlyNew : Bool}
    (hraises : (raises && m.lockConstructs parentKey concreteBuffer specifics onlyNew) = false) :
    (m.lock parentKey concreteBuffer specifics onlyNew raises).1.Proper := by
  cases concreteBuffer with
  | none => exact h
  | some buffer =>
    unfold BufferMetadata.lock
    unfold BufferMetadata.lockConstructs at hraises
    cases hkey : Key.forEntry parentKey (some buffer) specifics with
    | error error => simpa only [hkey] using h
    | ok newKey =>
      simp only [hkey] at hraises ⊢
      cases he : m.table_ newKey.hashID_ with
      | none =>
        simp only [he] at hraises ⊢
        exact h.storeAsLocked he (hashID_of_forEntry hkey) hraises
      | some existing =>
        simp only [he] at hraises ⊢
        split_ifs with honlyNew hlocked
        · exact h
        · exact h
        · have hraises' : (raises && existing.lockConstructs (some buffer)) = false := by
            simpa [honlyNew] using hraises
          exact h.commit_entry he ((h.entry _ _ he).lock hraises')

theorem Proper.markLocked (h : m.Proper) {buffer : Option Buff}
    (hraises : (raises && m.lockConstructs parentKey buffer specifics true) = false) :
    (m.markLocked parentKey buffer specifics raises).1.Proper := by
  cases buffer with
  | none => exact h
  | some buffer => exact h.lock hraises

theorem Proper.keyForBuffer (h : m.Proper)
    (hraises : (raises && m.lockConstructs parentKey concreteBuffer specifics true) = false) :
    (m.keyForBuffer parentKey concreteBuffer specifics raises).1.Proper := by
  unfold BufferMetadata.keyForBuffer
  cases Key.forEntry parentKey concreteBuffer specifics with
  | error error => exact h
  | ok derivedKey =>
    simp only
    cases m.table_ derivedKey.hashID_ with
    | some existing => exact h
    | none => exact h.markLocked hraises

/-- Releasing an entry is possible only when it is free, and thus there is nothing in the buffer. -/
theorem Proper.release (h : m.Proper) (key : HashVal) : (m.release key).1.Proper := by
  unfold BufferMetadata.release
  cases he : m.table_ key with
  | none => exact h
  | some e =>
    simp only
    split_ifs with hused
    · exact h
    · have hfree : e.state_ = .FREE := not_not.mp hused
      have hother : ∀ key' e', update m.table_ key none key' = some e' →
          key' ≠ key ∧ m.table_ key' = some e' := by
        intro key' e' he'
        by_cases hkey : key' = key
        · subst hkey
          rw [update_self] at he'
          cases he'
        · rw [update_of_ne hkey] at he'
          exact ⟨hkey, he'⟩
      refine ⟨fun key' e' he' => ?_, fun key' e' he' => ?_, fun key' => ?_⟩
      · exact h.keyed key' e' (hother key' e' he').2
      · exact h.entry key' e' (hother key' e' he').2
      · refine (h.history key').trans (congrArg some ?_)
        by_cases hkey : key' = key
        · subst hkey
          have hnothing : e.content = .empty := Entry.content_of_free ((h.entry key' e he).free hfree)
          rw [content_of_entry he, hnothing]
          exact (content_of_unknown (update_self ..)).symm
        · unfold BufferMetadata.content
          simp only [update_of_ne hkey]

/-- Each undisturbed operation keeps the invariant. -/
theorem Proper.perform (h : m.Proper) {op : BufferOperation} (hop : m.undisturbed op = true) :
    (m.perform op).Proper := by
  cases op with
  | key storageSize instanceFunc specifics =>
    simp only [BufferMetadata.perform, BufferMetadata.key]
    split_ifs
    · exact ((h.maybeStore rfl).maybeStore rfl).maybeStore rfl
    · exact (h.maybeStore rfl).maybeStore rfl
    · exact (h.maybeStore rfl).maybeStore rfl
    · exact h.maybeStore rfl
  | keyForHandler parentKey instanceFunc => exact h.maybeStore rfl
  | keyForTag parentKey specifics => exact h.maybeStore rfl
  | keyForBuffer parentKey concreteBuffer specifics raises =>
    exact h.keyForBuffer (by simpa only [undisturbed, Bool.not_eq_true'] using hop)
  | lock parentKey concreteBuffer specifics onlyNew raises =>
    exact h.lock (by simpa only [undisturbed, Bool.not_eq_true'] using hop)
  | markLocked parentKey buffer specifics raises =>
    exact h.markLocked (by simpa only [undisturbed, Bool.not_eq_true'] using hop)
  | release key => exact h.release key
  | mark key newState raises =>
    exact h.onEntry key fun e he => (h.entry key e he).mark newState raises
  | lockEntry key newBuffer raises =>
    refine h.onEntry key fun e he => (h.entry key e he).lock ?_
    simpa only [undisturbed, he, Option.any_some, Bool.not_eq_true'] using hop
  | invalidate key invokeDtor =>
    refine h.onEntry key fun e he => (h.entry key e he).invalidate ?_ invokeDtor
    simpa only [undisturbed, he, Option.any_some, Bool.not_eq_true'] using hop

theorem proper_reachable {family : Nat}
    (h : ((machine family).restrict fun m op => m.undisturbed op = true).Reachable m) : m.Proper := by
  refine Machine.Invariant.reachable (P := Proper) ⟨?_, ?_⟩ h
  · rintro m rfl
    exact proper_empty family
  · rintro m op m' hm ⟨hop, hstep⟩
    cases hstep
    exact hm.perform hop

/-! ## What breaks the lifecycle -/

/-- **The constructor raises when an existing entry is locked again**: the pointer remains, while the entry is
free still. -/
theorem not_lifecycle_of_lock {newBuffer : Option Buff}
    (hconstructs : e.lockConstructs newBuffer = true) : ¬ (m.commit (e.lock newBuffer true)).Lifecycle := by
  intro hlifecycle
  unfold Entry.lockConstructs at hconstructs
  simp only [Bool.and_eq_true, beq_iff_eq] at hconstructs
  obtain ⟨⟨hfree, hbuffer⟩, hhandler⟩ := hconstructs
  obtain ⟨buffer, rfl⟩ := Option.isSome_iff_exists.mp hbuffer
  have hlock : e.lock (some buffer) true =
      ⟨{ e with buffer_ := some buffer }, [.failed buffer], some .constructor⟩ := by
    rw [Entry.lock_free hfree]
    simp only [hhandler, if_true]
  rw [hlock] at hlifecycle
  have hpointer := hlifecycle.pointer _ _ (commit_table_self m _)
  simp [hfree, BufferState.inUse] at hpointer

/-- The constructor raises on a new entry: the destructor is invoked on a buffer without any object. -/
theorem not_lifecycle_of_storeAsLocked {key : Key} (hhandler : nontrivial key.instanceFunc_ = true) :
    ¬ (m.storeAsLocked (.create key (some buffer)) true).1.Lifecycle := by
  intro hlifecycle
  have hctor : (Entry.create key (some buffer)).invokeEmbeddedCtor true =
      ⟨.create key (some buffer), [.failed buffer], some .constructor⟩ := by
    simp only [Entry.create, Entry.invokeEmbeddedCtor, hhandler, if_true]
  have hmark : ((Entry.create key (some buffer)).mark .FREE true).entry.hashID_ = key.hashID_ ∧
      ((Entry.create key (some buffer)).mark .FREE true).events = [.destroyed buffer, .freed] := by
    simp [Entry.create, Entry.mark, Entry.allowedTransition, Entry.prepare,
      Entry.invokeEmbeddedDtor_and_clear, hhandler]
  have hpaired := hlifecycle.paired key.hashID_
  have hhistory : (m.storeAsLocked (.create key (some buffer)) true).1.history key.hashID_ =
      m.history key.hashID_ ++ .failed buffer :: .destroyed buffer :: [.freed] := by
    unfold storeAsLocked
    rw [hctor]
    simp only [BufferMetadata.commit, hmark.1, hmark.2, update_self]
    rfl
  rw [hhistory] at hpaired
  exact not_paired_of_failed hpaired

theorem not_lifecycle_of_lockConstructs {onlyNew : Bool} (h : m.Proper)
    (hconstructs : m.lockConstructs parentKey concreteBuffer specifics onlyNew = true) :
    ¬ (m.lock parentKey concreteBuffer specifics onlyNew true).1.Lifecycle := by
  cases concreteBuffer with
  | none => cases hconstructs
  | some buffer =>
    unfold BufferMetadata.lockConstructs at hconstructs
    unfold BufferMetadata.lock
    cases hkey : Key.forEntry parentKey (some buffer) specifics with
    | error error =>
      simp only [hkey] at hconstructs
      cases hconstructs
    | ok newKey =>
      simp only [hkey] at hconstructs ⊢
      cases he : m.table_ newKey.hashID_ with
      | none =>
        simp only [he] at hconstructs ⊢
        exact not_lifecycle_of_storeAsLocked hconstructs
      | some existing =>
        simp only [he, Bool.and_eq_true, Bool.not_eq_true'] at hconstructs ⊢
        obtain ⟨honlyNew, hexisting⟩ := hconstructs
        have hfree : existing.state_ = .FREE := by
          unfold Entry.lockConstructs at hexisting
          simp only [Bool.and_eq_true, beq_iff_eq] at hexisting
          exact hexisting.1.1
        have hlocked : existing.isLocked = false := by
          unfold Entry.isLocked
          rw [(h.entry _ _ he).free hfree]
          rfl
        simp only [honlyNew, hlocked]
        exact not_lifecycle_of_lock hexisting

theorem keyForBuffer_of_lockConstructs
    (hconstructs : m.lockConstructs parentKey concreteBuffer specifics true = true) :
    m.keyForBuffer parentKey concreteBuffer specifics raises =
      m.lock parentKey concreteBuffer specifics true raises := by
  cases concreteBuffer with
  | none => cases hconstructs
  | some buffer =>
    unfold BufferMetadata.lockConstructs at hconstructs
    unfold BufferMetadata.keyForBuffer
    cases hkey : Key.forEntry parentKey (some buffer) specifics with
    | error error =>
      simp only [hkey] at hconstructs
      cases hconstructs
    | ok derivedKey =>
      simp only [hkey] at hconstructs ⊢
      cases he : m.table_ derivedKey.hashID_ with
      | none => rfl
      | some existing =>
        simp only [he] at hconstructs
        cases hconstructs

/-- A type key invalidated does not stay in state NIL. -/
theorem not_lifecycle_of_invalidate {invokeDtor : Bool} (h : m.Proper) (he : m.table_ key = some e)
    (htype : e.isTypeKey = true) : ¬ (m.commit (e.invalidate invokeDtor)).Lifecycle := by
  intro hlifecycle
  have hnil : e.state_ = .NIL := by
    unfold Entry.isTypeKey at htype
    simp only [Bool.and_eq_true, beq_iff_eq] at htype
    exact htype.1
  have hstays := hlifecycle.typeKey _ _ (commit_table_self m _) ((h.entry key e he).type.mp hnil)
  cases hstays

/-- An operation which is disturbed breaks the lifecycle. -/
theorem not_lifecycle_of_disturbed (h : m.Proper) {op : BufferOperation} (hop : m.undisturbed op = false) :
    ¬ (m.perform op).Lifecycle := by
  cases op with
  | key storageSize instanceFunc specifics => cases hop
  | keyForHandler parentKey instanceFunc => cases hop
  | keyForTag parentKey specifics => cases hop
  | release key => cases hop
  | mark key newState raises => cases hop
  | keyForBuffer parentKey concreteBuffer specifics raises =>
    simp only [undisturbed, Bool.not_eq_false', Bool.and_eq_true] at hop
    obtain ⟨rfl, hconstructs⟩ := hop
    rw [perform, keyForBuffer_of_lockConstructs hconstructs]
    exact not_lifecycle_of_lockConstructs h hconstructs
  | lock parentKey concreteBuffer specifics onlyNew raises =>
    simp only [undisturbed, Bool.not_eq_false', Bool.and_eq_true] at hop
    obtain ⟨rfl, hconstructs⟩ := hop
    exact not_lifecycle_of_lockConstructs h hconstructs
  | markLocked parentKey buffer specifics raises =>
    simp only [undisturbed, Bool.not_eq_false', Bool.and_eq_true] at hop
    obtain ⟨rfl, hconstructs⟩ := hop
    cases buffer with
    | none => cases hconstructs
    | some buffer => exact not_lifecycle_of_lockConstructs h hconstructs
  | lockEntry key newBuffer raises =>
    simp only [undisturbed, Bool.not_eq_false', Bool.and_eq_true] at hop
    obtain ⟨rfl, hconstructs⟩ := hop
    obtain ⟨e, he, hconstructs⟩ := (Option.any_eq_true ..).mp hconstructs
    simp only [perform, onEntry, he]
    exact not_lifecycle_of_lock hconstructs
  | invalidate key invokeDtor =>
    simp only [undisturbed, Bool.not_eq_false'] at hop
    obtain ⟨e, he, htype⟩ := (Option.any_eq_true ..).mp hop
    simp only [perform, onEntry, he]
    exact not_lifecycle_of_invalidate h he htype

/-! ## The lifecycle over whole runs -/

/-- **The lifecycle of buffers is kept** in every run in which no constructor raises and no type key is
invalidated; and each operation which does so breaks it. -/
theorem lifecycle_kept {family : Nat} {m : BufferMetadata}
    (h : ((machine family).restrict fun m op => m.undisturbed op = true).Reachable m) :
    m.Lifecycle ∧ ∀ op, (m.perform op).Lifecycle ↔ m.undisturbed op = true := by
  have hproper := proper_reachable h
  refine ⟨hproper.lifecycle, fun op => ⟨fun hop => ?_, fun hop => (hproper.perform hop).lifecycle⟩⟩
  by_contra hdisturbed
  exact not_lifecycle_of_disturbed hproper (Bool.eq_false_iff.mpr hdisturbed) hop

/-- A handler for some type of objects. -/
def someHandler : TypeHandler := ⟨17, true⟩

/-- The type of buffers of 16 bytes for such objects. -/
def someType : Key := (Key.basic (.family 1) 16).withHandler someHandler

/-- A buffer is locked and becomes free, while the next one is still in use. -/
def someOperations : List BufferOperation :=
  [.key 16 someHandler .UNKNOWN, .markLocked someType (some 4096) .UNKNOWN false,
    .mark (.buffer someType.hashID_ 4096) .FREE false, .lock someType (some 8192) .UNKNOWN false false]

/-- The registry thereafter. -/
def someRegistry : BufferMetadata := someOperations.foldl perform (.empty 1)

theorem someRegistry_reachable : ((machine 1).restrict fun m op => m.undisturbed op = true).Reachable someRegistry :=
  Machine.restrict_reachable_of_exec (C := fun m op => undisturbed m op = true)
    (f := fun m op => some (perform m op)) someOperations rfl

theorem lifecycle_someRegistry : someRegistry.Lifecycle ∧
    someRegistry.history (.buffer someType.hashID_ 4096) = [.created 4096, .destroyed 4096, .freed] ∧
    someRegistry.history (.buffer someType.hashID_ 8192) = [.created 8192] :=
  ⟨(lifecycle_kept someRegistry_reachable).1, rfl, rfl⟩

/-- **The destructor is invoked without any object**, when the constructor raises for a new entry. -/
theorem not_lifecycle : ¬ ∀ family m, (machine family).Reachable m → m.Lifecycle := by
  intro h
  have hlifecycle := h 1 _ (Machine.reachable_of_exec
    [.key 16 someHandler .UNKNOWN, .lock someType (some 4096) .UNKNOWN false true] rfl)
  have hpaired : Paired ([] ++ .failed 4096 :: .destroyed 4096 :: [.freed]) :=
    hlifecycle.paired (.buffer someType.hashID_ 4096)
  exact not_paired_of_failed hpaired

end BufferMetadata

end Lumiera.Steam.Engine
