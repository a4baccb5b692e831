import Mathlib.Logic.Function.Basic
import Mathlib.Data.List.Nodup
import Lumiera.Base.Machine

/-! # Command instances (`steam/control/command-setup.cpp`)

The `CommandInstanceManager` opens instances of commands, as clones of a prototype registered globally.
Meanwhile arguments can be bound, and finally the instance is handed over to a dispatcher. A `Command` is a
smart handle, either empty or referring to a `CommandImpl`, which is denoted by number. Open instances are
held by handles in a hash table; an entry with an empty handle remains when the instance is moved out.

Which parameter data can be bound depends on the signature of the command; whether the dispatcher accepts a
command is up to the environment. -/

namespace Lumiera.Steam.Control

universe u

/-- The error ID of an exception. -/
inductive CommandError where
  | duplicateCommand
  | invalidCommand
  | lifecycle
  | unboundArguments
  /-- the parameter data does not fit the arguments expected -/
  | invalidArguments
  /-- raised by the dispatcher on enqueueing -/
  | rejected
  deriving DecidableEq, Repr

/-- The arguments of a command, which are provided as tuple built from parameter data. -/
structure Signature (Rec Args : Type u) where
  buildTuple : Rec → Option Args

/-- The implementation of a command, as far as the arguments are concerned. -/
structure CommandImpl (Rec Args : Type u) where
  signature : Signature Rec Args
  arguments : Option Args

/-- The instance manager with the registry of global commands, and all command implementations allocated.
The instances opened so far are noted down for the statements below. -/
structure CommandInstanceManager (Rec Args : Type u) where
  registry : String → Option Nat
  impls : Nat → CommandImpl Rec Args
  allocated : Nat
  table_ : String → Option (Option Nat)
  /-- what was handed over to the dispatcher, the latest last -/
  enqueued : List Nat
  opened : List Nat

namespace CommandInstanceManager

variable {Rec Args : Type u} (m : CommandInstanceManager Rec Args)

/-- The arguments are bound. -/
def canExec (cmd : Nat) : Bool := (m.impls cmd).arguments.isSome

/-- Create an independent clone copy, including the arguments. -/
def createCloneImpl (cmd : Nat) : Nat × CommandInstanceManager Rec Args :=
  (m.allocated,
    { m with
      impls := Function.update m.impls m.allocated (m.impls cmd)
      allocated := m.allocated + 1 })

/-- Put a handle into the table of open instances. -/
def setEntry (instanceID : String) (handle : Option Nat) : CommandInstanceManager Rec Args :=
  { m with table_ := Function.update m.table_ instanceID (some handle) }

/-- Access to an entry of the hash table, which is created when missing. -/
def accessEntry (instanceID : String) : Option Nat × CommandInstanceManager Rec Args :=
  match m.table_ instanceID with
  | some handle => (handle, m)
  | none => (none, m.setEntry instanceID none)

/-- The ID of an instance is formed by decorating the ID of the prototype. -/
def decorate (prototypeID invocationID : String) : String := prototypeID ++ "." ++ invocationID

/-- **Create and thus open** a new command instance. -/
def newInstance (prototypeID invocationID : String) :
    CommandInstanceManager Rec Args × Except CommandError String :=
  let instanceID := decorate prototypeID invocationID
  let (handle, m) := m.accessEntry instanceID
  match handle with
  | some _ => (m, .error .duplicateCommand)
  | none =>
    match m.registry prototypeID with
    | none => (m, .error .invalidCommand)
    | some prototype =>
      let (clone, m) := m.createCloneImpl prototype
      let m := m.setEntry instanceID (some clone)
      ({ m with opened := m.opened ++ [clone] }, .ok instanceID)

/-- Access the open instance, with a global command as fallback. -/
def getInstance (instanceID : String) : Except CommandError Nat :=
  match m.table_ instanceID with
  | none =>
    match m.registry instanceID with
    | none => .error .invalidCommand
    | some cmd => .ok cmd
  | some none => .error .lifecycle
  | some (some cmd) => .ok cmd

/-- Bind arguments provided as parameter data; all handles referring to this command share the arguments. -/
def bindArg (cmd : Nat) (argSeq : Rec) : CommandInstanceManager Rec Args × Except CommandError Unit :=
  match (m.impls cmd).signature.buildTuple argSeq with
  | none => (m, .error .invalidArguments)
  | some tuple =>
    ({ m with
        impls := Function.update m.impls cmd { m.impls cmd with arguments := some tuple } }, .ok ())

/-- Retrieve a clone of a global command, or else the open instance, which is moved out of the table. -/
def getCloneOrInstance (instanceID : String) (mustBeBound : Bool) :
    CommandInstanceManager Rec Args × Except CommandError Nat :=
  match m.registry instanceID with
  | some prototype =>
    let (clone, m) := m.createCloneImpl prototype
    if mustBeBound ∧ ¬ m.canExec clone then (m, .error .unboundArguments) else (m, .ok clone)
  | none =>
    match m.table_ instanceID with
    | none => (m, .error .invalidCommand)
    | some none => (m, .error .lifecycle)
    | some (some cmd) =>
      if ¬ mustBeBound ∨ m.canExec cmd then (m.setEntry instanceID none, .ok cmd)
      else (m, .error .unboundArguments)

/-- Hand a command over to the dispatcher. -/
def handOver (cmd : Nat) (accepts : Bool) :
    CommandInstanceManager Rec Args × Except CommandError Unit :=
  if accepts then ({ m with enqueued := m.enqueued ++ [cmd] }, .ok ()) else (m, .error .rejected)

/-- **Dispatch** the designated command instance, which has to be bound. -/
def dispatch (instanceID : String) (accepts : Bool) :
    CommandInstanceManager Rec Args × Except CommandError Unit :=
  match m.getCloneOrInstance instanceID true with
  | (m, .error e) => (m, .error e)
  | (m, .ok cmd) => m.handOver cmd accepts

/-- **Bind the arguments and dispatch** in one shot. -/
def bindAndDispatch (instanceID : String) (argSeq : Rec) (accepts : Bool) :
    CommandInstanceManager Rec Args × Except CommandError Unit :=
  match m.getCloneOrInstance instanceID false with
  | (m, .error e) => (m, .error e)
  | (m, .ok cmd) =>
    match m.bindArg cmd argSeq with
    | (m, .error e) => (m, .error e)
    | (m, .ok ()) => m.handOver cmd accepts

end CommandInstanceManager

/-! ## Operations -/

/-- What clients can do: the arguments can be bound through any handle obtained before. -/
inductive ManagerOperation (Rec : Type u) where
  | newInstance (prototypeID invocationID : String)
  | getInstance (instanceID : String)
  | bindArg (cmd : Nat) (argSeq : Rec)
  | dispatch (instanceID : String) (accepts : Bool)
  | bindAndDispatch (instanceID : String) (argSeq : Rec) (accepts : Bool)

namespace CommandInstanceManager

variable {Rec Args : Type u} (m : CommandInstanceManager Rec Args)

/-- The state after an operation, and the error raised, if any. -/
def perform : ManagerOperation Rec → CommandInstanceManager Rec Args × Option CommandError
  | .newInstance prototypeID invocationID => outcome (m.newInstance prototypeID invocationID)
  | .getInstance instanceID => outcome (m, m.getInstance instanceID)
  | .bindArg cmd argSeq => outcome (m.bindArg cmd argSeq)
  | .dispatch instanceID accepts => outcome (m.dispatch instanceID accepts)
  | .bindAndDispatch instanceID argSeq accepts =>
    outcome (m.bindAndDispatch instanceID argSeq accepts)
where
  outcome {α : Type} (result : CommandInstanceManager Rec Args × Except CommandError α) :
      CommandInstanceManager Rec Args × Option CommandError :=
    match result with
    | (m, .error e) => (m, some e)
    | (m, .ok _) => (m, none)

/-- Any sequence of operations, starting without open instances. -/
def machine : Machine (CommandInstanceManager Rec Args) (ManagerOperation Rec) where
  init m := (∀ cmdID cmd, m.registry cmdID = some cmd → cmd < m.allocated) ∧
    (∀ instanceID, m.table_ instanceID = none) ∧ m.enqueued = [] ∧ m.opened = []
  step m op m' := (m.perform op).1 = m'

/-! ## No command instance is lost or dispatched twice

Every operation has one of a few effects on the table of open instances. Two of them are not intended: opening
an instance of an unknown prototype leaves an entry behind, and an instance moved out of the table is lost
when binding the arguments or enqueueing fails thereafter. Otherwise, an operation which raises has no effect
on the table. -/

open Function List

variable {m} {m' : CommandInstanceManager Rec Args} {op : ManagerOperation Rec}
  {e : Option CommandError} {intended : Bool} {instanceID : String} {cmd : Nat}

/-- An instance is open. -/
def IsOpen (m : CommandInstanceManager Rec Args) (instanceID : String) (cmd : Nat) : Prop :=
  m.table_ instanceID = some (some cmd)

/-- **The operation does not fail half-way**: the prototype is known or there is an entry already; and for an
instance to be moved out of the table, the parameter data fits and the dispatcher accepts the command. -/
def Unfailing (m : CommandInstanceManager Rec Args) : ManagerOperation Rec → Prop
  | .newInstance prototypeID invocationID =>
    (m.registry prototypeID).isSome ∨ (m.table_ (decorate prototypeID invocationID)).isSome
  | .dispatch instanceID accepts =>
    (m.registry instanceID).isSome ∨ ∀ cmd, m.IsOpen instanceID cmd → m.canExec cmd → accepts
  | .bindAndDispatch instanceID argSeq accepts =>
    (m.registry instanceID).isSome ∨ ∀ cmd, m.IsOpen instanceID cmd →
      ((m.impls cmd).signature.buildTuple argSeq).isSome ∧ accepts
  | _ => True

/-! ## The effect of an operation -/

/-- **What an operation does** to the table and to the dispatcher. -/
inductive Effect (m m' : CommandInstanceManager Rec Args) : Option CommandError → Bool → Prop
  | none (e : Option CommandError) (htable : m'.table_ = m.table_) (hqueue : m'.enqueued = m.enqueued)
      (hopened : m'.opened = m.opened) : Effect m m' e true
  /-- a new instance is opened -/
  | create (instanceID : String) (hfree : ∀ cmd, ¬ m.IsOpen instanceID cmd)
      (htable : m'.table_ = update m.table_ instanceID (some (some m.allocated)))
      (hqueue : m'.enqueued = m.enqueued) (hopened : m'.opened = m.opened ++ [m.allocated])
      (hallocated : m.allocated < m'.allocated) : Effect m m' Option.none true
  /-- a clone of a global command is handed over -/
  | clone (htable : m'.table_ = m.table_) (hqueue : m'.enqueued = m.enqueued ++ [m.allocated])
      (hopened : m'.opened = m.opened) (hallocated : m.allocated < m'.allocated) :
      Effect m m' Option.none true
  /-- an open instance is handed over -/
  | move (instanceID : String) (cmd : Nat) (hopen : m.IsOpen instanceID cmd)
      (htable : m'.table_ = update m.table_ instanceID (some Option.none))
      (hqueue : m'.enqueued = m.enqueued ++ [cmd]) (hopened : m'.opened = m.opened) :
      Effect m m' Option.none true
  /-- an empty entry is left behind -/
  | leave (instanceID : String) (e : CommandError) (hmissing : m.table_ instanceID = Option.none)
      (htable : m'.table_ = update m.table_ instanceID (some Option.none))
      (hqueue : m'.enqueued = m.enqueued) (hopened : m'.opened = m.opened) : Effect m m' (some e) false
  /-- an open instance is lost -/
  | lose (instanceID : String) (cmd : Nat) (e : CommandError) (hopen : m.IsOpen instanceID cmd)
      (htable : m'.table_ = update m.table_ instanceID (some Option.none))
      (hqueue : m'.enqueued = m.enqueued) (hopened : m'.opened = m.opened) : Effect m m' (some e) false

/-- The registry is not changed by any operation, and no implementation is allocated twice. -/
structure Frame (m m' : CommandInstanceManager Rec Args) : Prop where
  registry : m'.registry = m.registry
  allocated : m.allocated ≤ m'.allocated

theorem bindArg_frame (m : CommandInstanceManager Rec Args) (cmd : Nat) (argSeq : Rec) :
    Frame m (m.bindArg cmd argSeq).1 ∧ (m.bindArg cmd argSeq).1.table_ = m.table_ ∧
      (m.bindArg cmd argSeq).1.enqueued = m.enqueued ∧ (m.bindArg cmd argSeq).1.opened = m.opened := by
  unfold bindArg
  cases (m.impls cmd).signature.buildTuple argSeq with
  | none => exact ⟨⟨rfl, Nat.le_refl _⟩, rfl, rfl, rfl⟩
  | some tuple => exact ⟨⟨rfl, Nat.le_refl _⟩, rfl, rfl, rfl⟩

/-- Opening an instance. -/
theorem newInstance_effect (prototypeID invocationID : String) :
    Frame m (m.perform (.newInstance prototypeID invocationID)).1 ∧
      ∃ intended, Effect m (m.perform (.newInstance prototypeID invocationID)).1
        (m.perform (.newInstance prototypeID invocationID)).2 intended ∧
          (m.Unfailing (.newInstance prototypeID invocationID) ↔ intended = true) := by
  simp only [perform, newInstance, accessEntry, Unfailing]
  cases hentry : m.table_ (decorate prototypeID invocationID) with
  | none =>
    cases hproto : m.registry prototypeID with
    | none =>
      simp only [setEntry, hproto]
      exact ⟨⟨rfl, Nat.le_refl _⟩, false, .leave _ _ hentry rfl rfl rfl, by simp⟩
    | some prototype =>
      simp only [setEntry, hproto]
      refine ⟨⟨rfl, Nat.le_succ _⟩, true,
        .create _ (fun cmd hopen => nomatch hentry.symm.trans hopen) ?_ rfl rfl (Nat.lt_succ_self _),
        by simp⟩
      exact update_idem ..
  | some handle =>
    cases handle with
    | none =>
      cases hproto : m.registry prototypeID with
      | none =>
        exact ⟨⟨rfl, Nat.le_refl _⟩, true, .none _ rfl rfl rfl, by simp⟩
      | some prototype =>
        exact ⟨⟨rfl, Nat.le_succ _⟩, true,
          .create _ (fun cmd hopen => nomatch hentry.symm.trans hopen) rfl rfl rfl
            (Nat.lt_succ_self _), by simp⟩
    | some cmd => exact ⟨⟨rfl, Nat.le_refl _⟩, true, .none _ rfl rfl rfl, by simp⟩

/-- Dispatching a bound instance. -/
theorem dispatch_effect (instanceID : String) (accepts : Bool) :
    Frame m (m.perform (.dispatch instanceID accepts)).1 ∧ ∃ intended,
    Effect m (m.perform (.dispatch instanceID accepts)).1 (m.perform (.dispatch instanceID accepts)).2 intended ∧
    (m.Unfailing (.dispatch instanceID accepts) ↔ intended = true) := by
  simp only [perform, dispatch, getCloneOrInstance, Unfailing, IsOpen]
  cases hproto : m.registry instanceID with
  | some prototype =>
    simp only [createCloneImpl]
    by_cases hexec : (m.impls prototype).arguments.isSome
    · cases accepts with
      | true =>
        simp only [canExec, update_self, hexec]
        exact ⟨⟨rfl, Nat.le_succ _⟩, true, .clone rfl rfl rfl (Nat.lt_succ_self _), by simp⟩
      | false =>
        simp only [canExec, update_self, hexec]
        exact ⟨⟨rfl, Nat.le_succ _⟩, true, .none _ rfl rfl rfl, by simp⟩
    · simp only [canExec, update_self, hexec]
      exact ⟨⟨rfl, Nat.le_succ _⟩, true, .none _ rfl rfl rfl, by simp⟩
  | none =>
    cases hentry : m.table_ instanceID with
    | none => exact ⟨⟨rfl, Nat.le_refl _⟩, true, .none _ rfl rfl rfl, by simp⟩
    | some handle =>
      cases handle with
      | none => exact ⟨⟨rfl, Nat.le_refl _⟩, true, .none _ rfl rfl rfl, by simp⟩
      | some cmd =>
        by_cases hexec : m.canExec cmd
        · cases accepts with
          | true =>
            simp only [hexec]
            exact ⟨⟨rfl, Nat.le_refl _⟩, true, .move _ _ hentry rfl rfl rfl, by simp⟩
          | false =>
            simp only [hexec]
            exact ⟨⟨rfl, Nat.le_refl _⟩, false, .lose _ _ _ hentry rfl rfl rfl, by simp [hexec]⟩
        · simp only [hexec]
          refine ⟨⟨rfl, Nat.le_refl _⟩, true, .none _ rfl rfl rfl, iff_of_true (.inr ?_) rfl⟩
          rintro cmd' ⟨⟩ hexec'
          exact absurd hexec' hexec

/-- Binding arguments and dispatching. -/
theorem bindAndDispatch_effect (instanceID : String) (argSeq : Rec) (accepts : Bool) :
    Frame m (m.perform (.bindAndDispatch instanceID argSeq accepts)).1 ∧
      ∃ intended, Effect m (m.perform (.bindAndDispatch instanceID argSeq accepts)).1
        (m.perform (.bindAndDispatch instanceID argSeq accepts)).2 intended ∧
          (m.Unfailing (.bindAndDispatch instanceID argSeq accepts) ↔ intended = true) := by
  simp only [perform, bindAndDispatch, getCloneOrInstance, Unfailing, IsOpen]
  cases hproto : m.registry instanceID with
  | some prototype =>
    simp only [createCloneImpl, bindArg, Bool.false_eq_true, false_and, if_false,
      update_self]
    cases htuple : (m.impls prototype).signature.buildTuple argSeq with
    | none => exact ⟨⟨rfl, Nat.le_succ _⟩, true, .none _ rfl rfl rfl, by simp⟩
    | some tuple =>
      cases accepts with
      | true => exact ⟨⟨rfl, Nat.le_succ _⟩, true, .clone rfl rfl rfl (Nat.lt_succ_self _), by simp⟩
      | false => exact ⟨⟨rfl, Nat.le_succ _⟩, true, .none _ rfl rfl rfl, by simp⟩
  | none =>
    cases hentry : m.table_ instanceID with
    | none => exact ⟨⟨rfl, Nat.le_refl _⟩, true, .none _ rfl rfl rfl, by simp⟩
    | some handle =>
      cases handle with
      | none => exact ⟨⟨rfl, Nat.le_refl _⟩, true, .none _ rfl rfl rfl, by simp⟩
      | some cmd =>
        -- the instance is moved out of the table before
        simp only [setEntry, bindArg, Bool.false_eq_true, not_false_eq_true, true_or, if_true]
        cases htuple : (m.impls cmd).signature.buildTuple argSeq with
        | none =>
          exact ⟨⟨rfl, Nat.le_refl _⟩, false, .lose _ _ _ hentry rfl rfl rfl, by simp [htuple]⟩
        | some tuple =>
          cases accepts with
          | true =>
            exact ⟨⟨rfl, Nat.le_refl _⟩, true, .move _ _ hentry rfl rfl rfl, by simp [htuple]⟩
          | false =>
            exact ⟨⟨rfl, Nat.le_refl _⟩, false, .lose _ _ _ hentry rfl rfl rfl, by simp⟩

/-- The effect of any operation, which is intended exactly when the operation does not fail half-way. -/
theorem perform_effect (m : CommandInstanceManager Rec Args) (op : ManagerOperation Rec) : Frame m (m.perform op).1 ∧
    ∃ intended, Effect m (m.perform op).1 (m.perform op).2 intended ∧ (m.Unfailing op ↔ intended = true) := by
  cases op with
  | newInstance prototypeID invocationID => exact newInstance_effect prototypeID invocationID
  | getInstance instanceID =>
    simp only [perform]
    cases m.getInstance instanceID with
    | error e => exact ⟨⟨rfl, Nat.le_refl _⟩, true, .none _ rfl rfl rfl, by simp [Unfailing]⟩
    | ok cmd => exact ⟨⟨rfl, Nat.le_refl _⟩, true, .none _ rfl rfl rfl, by simp [Unfailing]⟩
  | bindArg cmd argSeq =>
    obtain ⟨hframe, htable, hqueue, hopened⟩ := bindArg_frame m cmd argSeq
    have houtcome : (m.perform (.bindArg cmd argSeq)).1 = (m.bindArg cmd argSeq).1 := by
      simp only [perform]
      cases hres : m.bindArg cmd argSeq with
      | mk m' result => cases result <;> rfl
    rw [houtcome]
    exact ⟨hframe, true, .none _ htable hqueue hopened, by simp [Unfailing]⟩
  | dispatch instanceID accepts => exact dispatch_effect instanceID accepts
  | bindAndDispatch instanceID argSeq accepts => exact bindAndDispatch_effect instanceID argSeq accepts

/-! ## Invariants -/

/-- **At most once**: no instance is handed over twice, and whatever is open is not handed over yet. -/
structure AtMostOnce (m : CommandInstanceManager Rec Args) : Prop where
  distinct : ∀ id id' cmd, m.IsOpen id cmd → m.IsOpen id' cmd → id = id'
  notEnqueued : ∀ id cmd, m.IsOpen id cmd → cmd ∉ m.enqueued
  nodup : m.enqueued.Nodup
  allocated : (∀ id cmd, m.IsOpen id cmd → cmd < m.allocated) ∧ ∀ cmd ∈ m.enqueued, cmd < m.allocated

/-- **Not lost**: each instance opened is open until it is handed over. -/
def NotLost (m : CommandInstanceManager Rec Args) : Prop :=
  ∀ cmd ∈ m.opened, cmd ∈ m.enqueued ∨ ∃ id, m.IsOpen id cmd

theorem isOpen_update {handle : Option Nat}
    (htable : m'.table_ = update m.table_ instanceID (some handle)) (id : String) (cmd : Nat) :
    m'.IsOpen id cmd ↔ id = instanceID ∧ handle = some cmd ∨ id ≠ instanceID ∧ m.IsOpen id cmd := by
  unfold IsOpen
  rw [htable, update_apply]
  split_ifs with heq <;> simp [heq]

theorem isOpen_of_closed (htable : m'.table_ = update m.table_ instanceID (some none)) {id : String} {cmd : Nat}
    (h : m'.IsOpen id cmd) : id ≠ instanceID ∧ m.IsOpen id cmd := by
  rcases (isOpen_update htable id cmd).mp h with ⟨-, hnone⟩ | hother
  · cases hnone
  · exact hother

/-- Operations hand over each instance at most once. -/
theorem AtMostOnce.effect (h : m.AtMostOnce) (hframe : Frame m m') (heffect : Effect m m' e intended) :
    m'.AtMostOnce := by
  obtain ⟨hdistinct, hnot, hnodup, hopen, hqueue⟩ := h
  have hle := hframe.allocated
  -- when instances are only closed, or are not touched
  have hkept : (∀ id cmd, m'.IsOpen id cmd → m.IsOpen id cmd ∧ cmd ∉ m'.enqueued) →
      m'.enqueued.Nodup → (∀ cmd ∈ m'.enqueued, cmd < m'.allocated) → m'.AtMostOnce := by
    intro hsub hnodup' hqueue'
    refine ⟨?_, fun id cmd hid => (hsub id cmd hid).2, hnodup', ?_, hqueue'⟩
    · intro id id' cmd hid hid'
      exact hdistinct id id' cmd (hsub id cmd hid).1 (hsub id' cmd hid').1
    · intro id cmd hid
      exact Nat.lt_of_lt_of_le (hopen id cmd (hsub id cmd hid).1) hle
  have hbound : ∀ cmd ∈ m.enqueued, cmd < m'.allocated :=
    fun cmd hcmd => Nat.lt_of_lt_of_le (hqueue cmd hcmd) hle
  cases heffect with
  | none e htable hqueue' hopened =>
    rw [hqueue'] at hkept
    refine hkept (fun id cmd hid => ?_) hnodup hbound
    have hid' : m.IsOpen id cmd := by
      rwa [IsOpen, htable] at hid
    exact ⟨hid', hnot id cmd hid'⟩
  | create instanceID hfree htable hqueue' hopened hallocated =>
    have hfresh : m.allocated ∉ m.enqueued := fun hmem => Nat.lt_irrefl _ (hqueue _ hmem)
    have hcases : ∀ id cmd, m'.IsOpen id cmd → id = instanceID ∧ cmd = m.allocated ∨ m.IsOpen id cmd := by
      intro id cmd hid
      rcases (isOpen_update htable id cmd).mp hid with ⟨heq, hcmd⟩ | ⟨-, hother⟩
      · exact .inl ⟨heq, (Option.some.inj hcmd).symm⟩
      · exact .inr hother
    refine ⟨?_, ?_, hqueue' ▸ hnodup, ?_, hqueue' ▸ hbound⟩
    · intro id id' cmd hid hid'
      rcases hcases id cmd hid with ⟨heq, hcmd⟩ | hold <;>
        rcases hcases id' cmd hid' with ⟨heq', hcmd'⟩ | hold'
      · rw [heq, heq']
      · exact absurd (hopen id' cmd hold') (by omega)
      · exact absurd (hopen id cmd hold) (by omega)
      · exact hdistinct id id' cmd hold hold'
    · intro id cmd hid
      rw [hqueue']
      rcases hcases id cmd hid with ⟨-, rfl⟩ | hold
      · exact hfresh
      · exact hnot id cmd hold
    · intro id cmd hid
      rcases hcases id cmd hid with ⟨-, rfl⟩ | hold
      · exact hallocated
      · exact Nat.lt_of_lt_of_le (hopen id cmd hold) hle
  | clone htable hqueue' hopened hallocated =>
    have hfresh : m.allocated ∉ m.enqueued := fun hmem => Nat.lt_irrefl _ (hqueue _ hmem)
    rw [hqueue'] at hkept
    refine hkept (fun id cmd hid => ?_) ?_ ?_
    · have hid' : m.IsOpen id cmd := by
        rwa [IsOpen, htable] at hid
      refine ⟨hid', fun hmem => ?_⟩
      rcases mem_append.mp hmem with hmem | hlast
      · exact hnot id cmd hid' hmem
      · have := hopen id cmd hid'
        rw [mem_singleton.mp hlast] at this
        exact Nat.lt_irrefl _ this
    · exact nodup_append.mpr ⟨hnodup, nodup_singleton _, by
        rintro a ha b hb rfl
        exact hfresh (mem_singleton.mp hb ▸ ha)⟩
    · intro cmd hcmd
      rcases mem_append.mp hcmd with hcmd | hlast
      · exact hbound cmd hcmd
      · rw [mem_singleton.mp hlast]
        exact hallocated
  | move instanceID cmd hid htable hqueue' hopened =>
    rw [hqueue'] at hkept
    refine hkept (fun id' cmd' hid' => ?_) ?_ ?_
    · obtain ⟨hne, hold⟩ := isOpen_of_closed htable hid'
      refine ⟨hold, fun hmem => ?_⟩
      rcases mem_append.mp hmem with hmem | hlast
      · exact hnot id' cmd' hold hmem
      · rw [mem_singleton.mp hlast] at hold
        exact hne (hdistinct id' instanceID cmd hold hid)
    · exact nodup_append.mpr ⟨hnodup, nodup_singleton _, by
        rintro a ha b hb rfl
        exact hnot instanceID cmd hid (mem_singleton.mp hb ▸ ha)⟩
    · intro cmd' hcmd'
      rcases mem_append.mp hcmd' with hcmd' | hlast
      · exact hbound cmd' hcmd'
      · rw [mem_singleton.mp hlast]
        exact Nat.lt_of_lt_of_le (hopen instanceID cmd hid) hle
  | leave instanceID e hmissing htable hqueue' hopened =>
    rw [hqueue'] at hkept
    refine hkept (fun id cmd hid => ?_) hnodup hbound
    obtain ⟨-, hold⟩ := isOpen_of_closed htable hid
    exact ⟨hold, hnot id cmd hold⟩
  | lose instanceID cmd e hid htable hqueue' hopened =>
    rw [hqueue'] at hkept
    refine hkept (fun id' cmd' hid' => ?_) hnodup hbound
    obtain ⟨-, hold⟩ := isOpen_of_closed htable hid'
    exact ⟨hold, hnot id' cmd' hold⟩

/-- Operations with an intended effect do not lose instances. -/
theorem NotLost.effect (h : m.NotLost) (heffect : Effect m m' e true) : m'.NotLost := by
  intro cmd hcmd
  cases heffect with
  | none e htable hqueue' hopened =>
    rw [hopened] at hcmd
    rw [hqueue']
    rcases h cmd hcmd with hdone | ⟨id, hid⟩
    · exact .inl hdone
    · refine .inr ⟨id, ?_⟩
      rwa [IsOpen, htable]
  | create instanceID hfree htable hqueue' hopened hallocated =>
    rw [hopened] at hcmd
    rw [hqueue']
    rcases mem_append.mp hcmd with hold | hnew
    · rcases h cmd hold with hdone | ⟨id, hid⟩
      · exact .inl hdone
      · refine .inr ⟨id, (isOpen_update htable id cmd).mpr (.inr ⟨?_, hid⟩)⟩
        rintro rfl
        exact hfree cmd hid
    · rw [mem_singleton.mp hnew]
      exact .inr ⟨instanceID, (isOpen_update htable instanceID m.allocated).mpr (.inl ⟨rfl, rfl⟩)⟩
  | clone htable hqueue' hopened hallocated =>
    rw [hopened] at hcmd
    rw [hqueue']
    rcases h cmd hcmd with hdone | ⟨id, hid⟩
    · exact .inl (mem_append_left _ hdone)
    · refine .inr ⟨id, ?_⟩
      rwa [IsOpen, htable]
  | move instanceID cmd' hid' htable hqueue' hopened =>
    rw [hopened] at hcmd
    rw [hqueue']
    rcases h cmd hcmd with hdone | ⟨id, hid⟩
    · exact .inl (mem_append_left _ hdone)
    · by_cases heq : id = instanceID
      · subst heq
        cases hid.symm.trans hid'
        exact .inl (mem_append_right _ (mem_singleton_self cmd))
      · exact .inr ⟨id, (isOpen_update htable id cmd).mpr (.inr ⟨heq, hid⟩)⟩

theorem Effect.table_of_error {error : CommandError} (h : Effect m m' (some error) true) : m'.table_ = m.table_ := by
  cases h with
  | none e htable => exact htable

theorem Effect.not_table (h : Effect m m' e false) : ∃ error, e = some error ∧ m'.table_ ≠ m.table_ := by
  cases h with
  | leave instanceID e hmissing htable =>
    refine ⟨e, rfl, fun hsame => ?_⟩
    have hentry := congrFun (hsame.symm.trans htable) instanceID
    rw [hmissing, update_self] at hentry
    cases hentry
  | lose instanceID cmd e hid htable =>
    refine ⟨e, rfl, fun hsame => ?_⟩
    have hentry := congrFun (hsame.symm.trans htable) instanceID
    rw [update_self] at hentry
    cases hid.symm.trans hentry

/-! ## Runs -/

theorem atMostOnce_reachable (h : machine.Reachable m) : m.AtMostOnce := by
  refine Machine.Invariant.reachable ⟨?_, ?_⟩ h
  · rintro m ⟨-, htable, hqueue, -⟩
    have hnone : ∀ id cmd, ¬ m.IsOpen id cmd := by
      intro id cmd hid
      rw [IsOpen, htable] at hid
      cases hid
    exact ⟨fun id _ cmd hid => absurd hid (hnone id cmd), fun id cmd hid => absurd hid (hnone id cmd),
      hqueue ▸ nodup_nil, fun id cmd hid => absurd hid (hnone id cmd), hqueue ▸ nofun⟩
  · rintro m op m' hm rfl
    obtain ⟨hframe, intended, heffect, -⟩ := m.perform_effect op
    exact hm.effect hframe heffect

/-- **Command instances are kept**, in every run where no operation fails half-way: each instance opened is
open until handed over, at most once, and an operation leaves the table of open instances as it is when it
raises, exactly unless it fails half-way. -/
theorem instances_kept
    (h : (machine.restrict fun (m : CommandInstanceManager Rec Args) op => m.Unfailing op).Reachable m) :
    m.NotLost ∧ m.AtMostOnce ∧
      ∀ op, (m.Unfailing op ↔ ∀ e, (m.perform op).2 = some e → (m.perform op).1.table_ = m.table_) := by
  refine ⟨?_, atMostOnce_reachable h.of_restrict, ?_⟩
  · refine Machine.Invariant.reachable ⟨?_, ?_⟩ h
    · rintro m ⟨-, -, -, hopened⟩ cmd hcmd
      rw [hopened] at hcmd
      cases hcmd
    · rintro m op m' hm ⟨hunfailing, rfl⟩
      obtain ⟨-, intended, heffect, hintended⟩ := m.perform_effect op
      rw [hintended.mp hunfailing] at heffect
      exact hm.effect heffect
  · intro op
    obtain ⟨-, intended, heffect, hintended⟩ := m.perform_effect op
    rw [hintended]
    constructor
    · rintro rfl e he
      rw [he] at heffect
      exact heffect.table_of_error
    · intro hsame
      by_contra hnot
      rw [Bool.not_eq_true] at hnot
      subst hnot
      obtain ⟨error, he, hchanged⟩ := heffect.not_table
      exact hchanged (hsame error he)

/-- A manager with a single global command, which takes a number as argument, given as a list. -/
def oneCommand : CommandInstanceManager (List Nat) Nat where
  registry cmdID := if cmdID = "cmd" then some 0 else none
  impls _ := ⟨⟨List.head?⟩, none⟩
  allocated := 1
  table_ _ := none
  enqueued := []
  opened := []

theorem oneCommand_init : machine.init oneCommand := by
  refine ⟨fun cmdID cmd hcmd => ?_, fun _ => rfl, rfl, rfl⟩
  simp only [oneCommand] at hcmd
  split_ifs at hcmd
  rw [← Option.some.inj hcmd]
  exact Nat.zero_lt_one

/-- An instance is opened; dispatching it without arguments leaves it open. -/
theorem instances_kept_unbound : ∃ m : CommandInstanceManager (List Nat) Nat,
    (machine.restrict fun (m : CommandInstanceManager (List Nat) Nat) op => m.Unfailing op).Reachable m ∧
    m.opened = [1] ∧ m.NotLost ∧ m.AtMostOnce ∧ (m.perform (.dispatch "cmd.1" true)).1.table_ = m.table_ := by
  have hreach : (machine.restrict fun (m : CommandInstanceManager (List Nat) Nat) op =>
      m.Unfailing op).Reachable (oneCommand.perform (.newInstance "cmd" "1")).1 :=
    ⟨oneCommand, [.newInstance "cmd" "1"], oneCommand_init, .cons ⟨.inl rfl, rfl⟩ (.nil _)⟩
  obtain ⟨hkept, honce, hraise⟩ := instances_kept hreach
  refine ⟨_, hreach, rfl, hkept, honce, (hraise _).mp (.inr fun _ _ _ => rfl) .unboundArguments rfl⟩

/-- **An instance is lost** when the parameter data does not fit, and opening an instance of an unknown
command leaves an entry behind. -/
theorem not_instances_kept :
    (∃ m : CommandInstanceManager (List Nat) Nat, machine.Reachable m ∧ ¬ m.NotLost) ∧
      ∃ m : CommandInstanceManager (List Nat) Nat, machine.Reachable m ∧
        (m.perform (.newInstance "other" "1")).2 = some .invalidCommand ∧
          (m.perform (.newInstance "other" "1")).1.table_ ≠ m.table_ := by
  constructor
  · have hopened : machine.Reachable (oneCommand.perform (.newInstance "cmd" "1")).1 :=
      (Machine.Reachable.of_init oneCommand_init).step rfl
    have honly := (atMostOnce_reachable hopened).distinct
    have hopen : (oneCommand.perform (.newInstance "cmd" "1")).1.IsOpen "cmd.1" 1 := rfl
    refine ⟨_, hopened.step (a := .bindAndDispatch "cmd.1" [] true) rfl, fun hkept => ?_⟩
    rcases hkept 1 mem_cons_self with hdone | ⟨id, hid⟩
    · cases hdone
    · obtain ⟨hne, hold⟩ := isOpen_of_closed rfl hid
      exact hne (honly id "cmd.1" 1 hold hopen)
  · refine ⟨oneCommand, .of_init oneCommand_init, rfl, fun hsame => ?_⟩
    have hentry := congrFun hsame (decorate "other" "1")
    cases hentry

end CommandInstanceManager

end Lumiera.Steam.Control
