import Lumiera.Base.OrderedSet
import Lumiera.Lib.Diff.GenNodeAssignment
import Lumiera.Stage.Ctrl.StateRecorder

/-! # State marks of any type (`stage/ctrl/state-map-grouping-storage.hpp`, `state-recorder.hpp`)

The state marks captured are nodes, with a payload of any type. The marks of an element form a set which
is ordered by the symbol of the property, while equality of nodes regards the type of the payload too;
a mark found in this set is assigned to. This is meant to overwrite it by the later one, but assignment is
refused when the types differ, and also for types which can only be cloned, as time values. -/

namespace Lumiera.Stage.Ctrl

open Lib.Diff

universe u v

/-! ## The storage -/

/-- The marks captured for one element (`StateData`, a set ordered by `GenNode::IDComparator`). -/
abbrev MarkSet : Type := OrderedSet fun stateMark : GenNode => stateMark.idi.sym

/-- The marks of each element (`elmTable_`, a hash map over the identities of elements). -/
abbrev MarkStorage (ι : Type u) : Type u := AList fun _ : ι => MarkSet

/-- `Ref::NO` -/
def refNO {τ : Type v} (H : Identities τ) : GenNode := .mk (H.id "_NO_" H.recTag) (.recRef none)

variable {ι : Type u} [DecidableEq ι] {τ : Type v} (H : Identities τ)

namespace MarkStorage

/-- The mark found for an element and a property. -/
def recorded (storage : MarkStorage ι) (elementID : ι) (propertyKey : String) : Option GenNode :=
  (storage.lookup elementID).bind fun stateSet => stateSet.find propertyKey

/-- `retrieve`: the state mark last seen for the denoted property, or a generic "no" marker. -/
def retrieve (storage : MarkStorage ι) (elementID : ι) (propertyKey : String) : GenNode :=
  (storage.recorded elementID propertyKey).getD (refNO H)

/-- `record`: the state mark is stored, or assigned to the previously existing entry. -/
def record (relocated : List Nat → Bool) (storage : MarkStorage ι) (elementID : ι) (stateMark : GenNode) :
    Performed (MarkStorage ι) :=
  let res := ((storage.lookup elementID).getD .empty).emplace stateMark
  if res.2 then ⟨storage.insert elementID res.1, false⟩
  else
    -- update existing contents
    let stateSet := res.1.modify stateMark.idi.sym
      (fun present => (present.copyAssign relocated stateMark).state)
      (fun present => present.sym_copyAssign relocated stateMark)
    ⟨storage.insert elementID stateSet,
      (res.1.find stateMark.idi.sym).any fun present => (present.copyAssign relocated stateMark).raised⟩

/-- `clearProperty` -/
def clearProperty (storage : MarkStorage ι) (elementID : ι) (propertyKey : String) : MarkStorage ι :=
  match storage.lookup elementID with
  | none => storage
  | some stateSet => storage.insert elementID (stateSet.erase propertyKey)

/-- `clearState` of one element -/
def clearState (storage : MarkStorage ι) (elementID : ι) : MarkStorage ι := storage.erase elementID

end MarkStorage

/-! ## The recorder -/

/-- What is called on the recorder. Whether the storage of vectors within a record is large enough depends
on what it was used for before; this is left open. -/
inductive RecorderCall (ι : Type u)
  | recordState (uiElm : ι) (stateMark : GenNode) (relocated : List Nat → Bool)
  | clearState

namespace StateRecorder

/-- `recordState` -/
def recordState (relocated : List Nat → Bool) (storage_ : MarkStorage ι) (uiElm : ι) (stateMark : GenNode) :
    Performed (MarkStorage ι) :=
  if MARK_reset = stateMark.idi.sym then ⟨storage_.clearState uiElm, false⟩
  else if MARK_clearErr = stateMark.idi.sym then ⟨storage_.clearProperty uiElm MARK_Error, false⟩
  else if MARK_clearMsg = stateMark.idi.sym then ⟨storage_.clearProperty uiElm MARK_Message, false⟩
  else storage_.record relocated uiElm stateMark

/-- `currentState` -/
def currentState (storage_ : MarkStorage ι) (uiElm : ι) (propertyKey : String) : GenNode :=
  storage_.retrieve H uiElm propertyKey

/-- `replayPropertiesOf`: the messages sent for the entry of one element. -/
def replayPropertiesOf (entry : Sigma fun _ : ι => MarkSet) : List (ι × GenNode) :=
  entry.2.elems.map fun stateMark => (entry.1, stateMark)

/-- `replayAllState ()`, for the entries in some order. -/
def replayAllState (entries : List (Sigma fun _ : ι => MarkSet)) : List (ι × GenNode) :=
  entries.flatMap replayPropertiesOf

/-- `replayAllState (propertyKey)`; without a result when the comparison with the marker raises. -/
def replayAllStateOf (propertyKey : String) : List (Sigma fun _ : ι => MarkSet) → Option (List (ι × GenNode))
  | [] => some []
  | entry :: entries =>
    let state := (entry.2.find propertyKey).getD (refNO H)
    match state.equals (refNO H) with
    | none => none
    | some true => replayAllStateOf propertyKey entries
    | some false => (replayAllStateOf propertyKey entries).map ((entry.1, state) :: ·)

/-- `replayAllProperties` -/
def replayAllProperties (storage_ : MarkStorage ι) (uiElm : ι) : List (ι × GenNode) :=
  match storage_.lookup uiElm with
  | none => []
  | some stateSet => replayPropertiesOf ⟨uiElm, stateSet⟩

/-- One call. -/
def step (storage_ : MarkStorage ι) : RecorderCall ι → Performed (MarkStorage ι)
  | .recordState uiElm stateMark relocated => recordState relocated storage_ uiElm stateMark
  | .clearState => ⟨∅, false⟩

/-- A sequence of calls, where exceptions are caught by the caller. -/
def run (storage_ : MarkStorage ι) : List (RecorderCall ι) → MarkStorage ι
  | [] => storage_
  | call :: calls => run (step storage_ call).state calls

end StateRecorder

/-! ## The history -/

/-- A call, and whether it raised an exception. -/
structure RecorderEvent (ι : Type u) where
  call : RecorderCall ι
  raised : Bool

namespace RecorderEvent

/-- Marks which are not captured, but cause marks to be discarded. -/
def isCommand (stateMark : GenNode) : Bool :=
  stateMark.idi.sym = MARK_reset || stateMark.idi.sym = MARK_clearErr || stateMark.idi.sym = MARK_clearMsg

/-- **The mark accepted** for an element and a property. -/
def accepted (uiElm : ι) (propertyKey : String) : RecorderEvent ι → Option GenNode
  | ⟨.recordState elm stateMark _, raised⟩ =>
    if elm = uiElm ∧ stateMark.idi.sym = propertyKey ∧ isCommand stateMark = false ∧ raised = false
    then some stateMark else none
  | ⟨.clearState, _⟩ => none

/-- **Whether the mark is discarded** of an element and a property: on reset of the element, when all state
is cleared, and for error and message when these are cleared. -/
def discards (uiElm : ι) (propertyKey : String) : RecorderEvent ι → Bool
  | ⟨.recordState elm stateMark _, _⟩ => elm = uiElm &&
      (stateMark.idi.sym = MARK_reset ||
        (stateMark.idi.sym = MARK_clearErr && propertyKey = MARK_Error) ||
        (stateMark.idi.sym = MARK_clearMsg && propertyKey = MARK_Message))
  | ⟨.clearState, _⟩ => true

/-- The last mark accepted, unless it was discarded since then. -/
def lastAccepted (uiElm : ι) (propertyKey : String) (events : List (RecorderEvent ι)) : Option GenNode :=
  (events.reverse.find? fun event =>
    (event.accepted uiElm propertyKey).isSome || event.discards uiElm propertyKey).bind
      fun event => event.accepted uiElm propertyKey

end RecorderEvent

/-! ## What is recorded -/

namespace MarkStorage

variable {storage : MarkStorage ι} {relocated : List Nat → Bool} {elm elm' : ι} {key key' : String}
  {mark present : GenNode}

theorem recorded_insert {stateSet : MarkSet} : MarkStorage.recorded (storage.insert elm stateSet) elm' key =
    if elm' = elm then stateSet.find key else storage.recorded elm' key := by
  unfold recorded
  split
  · next h => rw [h, AList.lookup_insert, Option.bind_some]
  · next h => rw [AList.lookup_insert_ne h]

theorem find_getD : ((storage.lookup elm).getD .empty).find key = storage.recorded elm key := by
  unfold recorded
  cases storage.lookup elm <;> rfl

theorem recorded_clearState :
    (storage.clearState elm).recorded elm' key = if elm' = elm then none else storage.recorded elm' key := by
  unfold recorded clearState
  split
  · next h => rw [h, AList.lookup_erase]; rfl
  · next h => rw [AList.lookup_erase_ne h]

theorem recorded_clearProperty : (storage.clearProperty elm key).recorded elm' key' =
    if elm' = elm ∧ key' = key then none else storage.recorded elm' key' := by
  unfold clearProperty
  cases hlookup : storage.lookup elm with
  | none =>
    show storage.recorded elm' key' = _
    split
    · next h =>
        rw [h.1, recorded, hlookup]
        rfl
    · rfl
  | some stateSet =>
    rw [recorded_insert, OrderedSet.find_erase]
    by_cases helm : elm' = elm
    · have hfind : storage.recorded elm' key' = stateSet.find key' := by
        rw [recorded, helm, hlookup, Option.bind_some]
      rw [if_pos helm, hfind]
      exact if_congr (and_iff_right helm).symm rfl rfl
    · rw [if_neg helm, if_neg fun h => helm h.1]

/-- The previously existing entry is updated by the assignment. -/
def updated (relocated : List Nat → Bool) (storage : MarkStorage ι) (elm : ι) (mark : GenNode) : MarkSet :=
  ((storage.lookup elm).getD .empty).modify mark.idi.sym
    (fun present => (present.copyAssign relocated mark).state)
    (fun present => present.sym_copyAssign relocated mark)

theorem record_cases (relocated : List Nat → Bool) (storage : MarkStorage ι) (elm : ι) (mark : GenNode) :
    (storage.recorded elm mark.idi.sym = none ∧ storage.record relocated elm mark =
      ⟨storage.insert elm (((storage.lookup elm).getD .empty).emplace mark).1, false⟩) ∨
    ∃ present, storage.recorded elm mark.idi.sym = some present ∧ storage.record relocated elm mark =
      ⟨storage.insert elm (storage.updated relocated elm mark), (present.copyAssign relocated mark).raised⟩ := by
  cases hfound : storage.recorded elm mark.idi.sym with
  | none =>
    have hadded := OrderedSet.emplace_snd_of_find (find_getD.trans hfound)
    exact .inl ⟨rfl, if_pos hadded⟩
  | some present =>
    have hkept := OrderedSet.emplace_of_find (find_getD.trans hfound)
    refine .inr ⟨present, rfl, ?_⟩
    unfold record
    rw [hkept]
    show (⟨_, (((storage.lookup elm).getD .empty).find mark.idi.sym).any _⟩ : Performed (MarkStorage ι)) = _
    rw [find_getD, hfound]
    rfl

/-- **The mark can be assigned** to the one recorded, provided that this one has the same type. -/
def Assignable (relocated : List Nat → Bool) (storage : MarkStorage ι) (elm : ι) (mark : GenNode) : Prop :=
  ∀ present, storage.recorded elm mark.idi.sym = some present →
    present.data.payloadType = mark.data.payloadType → present.canAssign relocated mark = true

/-- **A mark is to be rejected** when the one recorded is of another type. -/
def Rejects (storage : MarkStorage ι) (elm : ι) (mark : GenNode) : Prop :=
  ∃ present, storage.recorded elm mark.idi.sym = some present ∧
    present.data.payloadType ≠ mark.data.payloadType

section Assignable

variable (h : storage.Assignable relocated elm mark)

include h

/-- The mark recorded is overwritten, or nothing is changed. -/
theorem Assignable.copyAssign
    (hpresent : storage.recorded elm mark.idi.sym = some present) :
    present.copyAssign relocated mark =
      if present.data.payloadType = mark.data.payloadType then ⟨mark, false⟩ else ⟨present, true⟩ := by
  split
  · next hsame => exact present.copyAssign_of_canAssign mark relocated (h present hpresent hsame)
  · next hdiffers =>
      rw [GenNode.copyAssign_of_not_record fun hrecord => hdiffers (hrecord.1.trans hrecord.2.symm),
        if_neg fun hassign => hdiffers hassign.1]

theorem record_raised_iff :
    (storage.record relocated elm mark).raised = true ↔ storage.Rejects elm mark := by
  obtain ⟨hnone, heq⟩ | ⟨present, hpresent, heq⟩ := record_cases relocated storage elm mark
  · rw [heq]
    refine ⟨nofun, ?_⟩
    rintro ⟨present, hpresent, -⟩
    rw [hnone] at hpresent
    cases hpresent
  · rw [heq, Rejects, hpresent]
    rw [h.copyAssign hpresent]
    split
    · next hassign => exact ⟨nofun, fun ⟨_, hsame, hnot⟩ => absurd (Option.some.inj hsame ▸ hassign) hnot⟩
    · next hrefused => exact ⟨fun _ => ⟨present, rfl, hrefused⟩, fun _ => rfl⟩

theorem lookup_record_of_raised
    (hraised : (storage.record relocated elm mark).raised = true) :
    (storage.record relocated elm mark).state.lookup elm' = storage.lookup elm' := by
  obtain ⟨-, heq⟩ | ⟨present, hpresent, heq⟩ := record_cases relocated storage elm mark
  · rw [heq] at hraised
    cases hraised
  · rw [heq] at hraised ⊢
    have hleft : (present.copyAssign relocated mark).state = present := by
      rw [h.copyAssign hpresent] at hraised ⊢
      split
      · next hassign => rw [if_pos hassign] at hraised; cases hraised
      · rfl
    have hsame : storage.updated relocated elm mark = (storage.lookup elm).getD .empty := by
      refine OrderedSet.modify_eq_self fun x hx => ?_
      rw [find_getD, hpresent] at hx
      rw [← Option.some.inj hx]
      exact hleft
    by_cases helm : elm' = elm
    · rw [helm, AList.lookup_insert, hsame]
      cases hlookup : storage.lookup elm with
      | none => rw [recorded, hlookup] at hpresent; cases hpresent
      | some stateSet => rfl
    · rw [AList.lookup_insert_ne helm]

theorem recorded_record
    (hdone : (storage.record relocated elm mark).raised = false) :
    (storage.record relocated elm mark).state.recorded elm' key =
      if elm' = elm ∧ key = mark.idi.sym then some mark else storage.recorded elm' key := by
  have hset : ∃ stateSet : MarkSet, (storage.record relocated elm mark).state = storage.insert elm stateSet ∧
      stateSet.find key = if key = mark.idi.sym then some mark else storage.recorded elm key := by
    obtain ⟨hnone, heq⟩ | ⟨present, hpresent, heq⟩ := record_cases relocated storage elm mark
    · rw [heq]
      exact ⟨_, rfl, by rw [OrderedSet.find_emplace (find_getD.trans hnone), find_getD]⟩
    · rw [heq] at hdone ⊢
      have hleft : (present.copyAssign relocated mark).state = mark := by
        rw [h.copyAssign hpresent] at hdone ⊢
        split
        · rfl
        · next hrefused => rw [if_neg hrefused] at hdone; cases hdone
      refine ⟨_, rfl, ?_⟩
      rw [updated, OrderedSet.find_modify, find_getD, find_getD, hpresent, Option.map_some, hleft]
  obtain ⟨stateSet, hstate, hfind⟩ := hset
  rw [hstate, recorded_insert, hfind]
  by_cases helm : elm' = elm
  · rw [if_pos helm, helm]
    exact if_congr (and_iff_right rfl).symm rfl rfl
  · rw [if_neg helm, if_neg fun h => helm h.1]

end Assignable

end MarkStorage

/-! ## One call -/

open RecorderEvent

namespace StateRecorder

variable {storage_ : MarkStorage ι} {call : RecorderCall ι} {calls : List (RecorderCall ι)} {uiElm : ι}
  {propertyKey : String} {relocated : List Nat → Bool} {stateMark : GenNode}

theorem recordState_of_captured (h : isCommand stateMark = false) :
    recordState relocated storage_ uiElm stateMark = storage_.record relocated uiElm stateMark := by
  simp only [isCommand, Bool.or_eq_false_iff, decide_eq_false_iff_not] at h
  rw [recordState, if_neg fun heq => h.1.1 heq.symm, if_neg fun heq => h.1.2 heq.symm,
    if_neg fun heq => h.2 heq.symm]

theorem recordState_raised_of_command (h : isCommand stateMark = true) :
    (recordState relocated storage_ uiElm stateMark).raised = false := by
  simp only [isCommand, Bool.or_eq_true, decide_eq_true_iff] at h
  unfold recordState
  split
  · rfl
  · next hreset =>
      split
      · rfl
      · next hclearErr =>
          rw [if_pos]
          rcases h with (h | h) | h
          · exact absurd h.symm hreset
          · exact absurd h.symm hclearErr
          · exact h.symm

/-- **The calls which do as intended**: whenever a mark is to be captured where one of the same type is
recorded, it can be assigned to this one. -/
def Assignable (storage_ : MarkStorage ι) : RecorderCall ι → Prop
  | .recordState uiElm stateMark relocated =>
    isCommand stateMark = false → storage_.Assignable relocated uiElm stateMark
  | .clearState => True

/-- **The calls to be rejected**: a mark is to be captured, and the one recorded is of another type. -/
def Rejects (storage_ : MarkStorage ι) : RecorderCall ι → Prop
  | .recordState uiElm stateMark _ => isCommand stateMark = false ∧ storage_.Rejects uiElm stateMark
  | .clearState => False

/-- Texts, and all other values which are not just cloned. -/
theorem assignable_of_isAssignable (hrecord : stateMark.data.payloadType ≠ .record)
    (htype : stateMark.data.payloadType.isAssignable = true) :
    Assignable storage_ (.recordState uiElm stateMark relocated) := by
  rintro - ⟨_, _⟩ - hsame
  obtain ⟨_, _⟩ := stateMark
  rw [GenNode.canAssign]
  exact (DataCap.canAssign_of_not_record fun h => hrecord h.2).mpr ⟨hsame, htype⟩

theorem step_raised_iff (h : Assignable storage_ call) :
    (step storage_ call).raised = true ↔ Rejects storage_ call := by
  cases call with
  | clearState => exact ⟨nofun, nofun⟩
  | recordState uiElm stateMark relocated =>
    show (recordState relocated storage_ uiElm stateMark).raised = true ↔ _ ∧ _
    cases hcommand : isCommand stateMark with
    | true =>
      rw [recordState_raised_of_command hcommand]
      exact ⟨nofun, nofun⟩
    | false =>
      rw [recordState_of_captured hcommand, MarkStorage.record_raised_iff (h hcommand)]
      exact (and_iff_right rfl).symm

theorem lookup_step_of_raised (h : Assignable storage_ call) (hraised : (step storage_ call).raised = true) :
    (step storage_ call).state.lookup uiElm = storage_.lookup uiElm := by
  cases call with
  | clearState => cases hraised
  | recordState elm mark relocated =>
    have hcaptured : isCommand mark = false := ((step_raised_iff h).mp hraised).1
    rw [step, recordState_of_captured hcaptured] at hraised ⊢
    exact MarkStorage.lookup_record_of_raised (h hcaptured) hraised

variable {raised : Bool}

theorem discards_iff {elm : ι} :
    discards uiElm propertyKey ⟨.recordState elm stateMark relocated, raised⟩ = true ↔
      elm = uiElm ∧ (stateMark.idi.sym = MARK_reset ∨
        (stateMark.idi.sym = MARK_clearErr ∧ propertyKey = MARK_Error) ∨
        (stateMark.idi.sym = MARK_clearMsg ∧ propertyKey = MARK_Message)) := by
  simp only [discards, Bool.and_eq_true, Bool.or_eq_true, decide_eq_true_iff, or_assoc]

/-- A command discards what it is meant for, and all else remains. -/
theorem recorded_recordState_of_command {elm : ι} (h : isCommand stateMark = true) :
    (recordState relocated storage_ elm stateMark).state.recorded uiElm propertyKey =
      if discards uiElm propertyKey ⟨.recordState elm stateMark relocated, raised⟩ then none
      else storage_.recorded uiElm propertyKey := by
  simp only [isCommand, Bool.or_eq_true, decide_eq_true_iff] at h
  rcases h with (h | h) | h
  · rw [recordState, if_pos h.symm, MarkStorage.recorded_clearState]
    refine if_congr (discards_iff.trans ?_).symm rfl rfl
    exact ⟨fun hd => hd.1.symm, fun helm => ⟨helm.symm, .inl h⟩⟩
  · have hreset : MARK_reset ≠ stateMark.idi.sym := by rw [h]; decide
    rw [recordState, if_neg hreset, if_pos h.symm, MarkStorage.recorded_clearProperty]
    refine if_congr (discards_iff.trans ?_).symm rfl rfl
    constructor
    · rintro ⟨helm, hsym | ⟨-, hkey⟩ | ⟨hsym, -⟩⟩
      · exact absurd hsym.symm hreset
      · exact ⟨helm.symm, hkey⟩
      · exact absurd (h.symm.trans hsym) (by decide)
    · rintro ⟨helm, hkey⟩
      exact ⟨helm.symm, .inr (.inl ⟨h, hkey⟩)⟩
  · have hreset : MARK_reset ≠ stateMark.idi.sym := by rw [h]; decide
    have hclearErr : MARK_clearErr ≠ stateMark.idi.sym := by rw [h]; decide
    rw [recordState, if_neg hreset, if_neg hclearErr, if_pos h.symm, MarkStorage.recorded_clearProperty]
    refine if_congr (discards_iff.trans ?_).symm rfl rfl
    constructor
    · rintro ⟨helm, hsym | ⟨hsym, -⟩ | ⟨-, hkey⟩⟩
      · exact absurd hsym.symm hreset
      · exact absurd hsym.symm hclearErr
      · exact ⟨helm.symm, hkey⟩
    · rintro ⟨helm, hkey⟩
      exact ⟨helm.symm, .inr (.inr ⟨h, hkey⟩)⟩

theorem discards_of_captured {elm : ι} (h : isCommand stateMark = false) :
    discards uiElm propertyKey ⟨.recordState elm stateMark relocated, raised⟩ = false := by
  simp only [isCommand, Bool.or_eq_false_iff, decide_eq_false_iff_not] at h
  rw [← Bool.not_eq_true, discards_iff]
  rintro ⟨-, hsym | ⟨hsym, -⟩ | ⟨hsym, -⟩⟩
  · exact h.1.1 hsym
  · exact h.1.2 hsym
  · exact h.2 hsym

/-- **One call**: what is recorded for an element and a property is the mark when it is accepted, nothing when
it is discarded, and otherwise what it was before. -/
theorem recorded_step (h : Assignable storage_ call) :
    (step storage_ call).state.recorded uiElm propertyKey =
      if (accepted uiElm propertyKey ⟨call, (step storage_ call).raised⟩).isSome ||
        discards uiElm propertyKey ⟨call, (step storage_ call).raised⟩
      then accepted uiElm propertyKey ⟨call, (step storage_ call).raised⟩
      else storage_.recorded uiElm propertyKey := by
  cases call with
  | clearState => rfl
  | recordState elm mark relocated =>
    rw [step]
    cases hcommand : isCommand mark with
    | true =>
      have hnone : accepted uiElm propertyKey
          ⟨.recordState elm mark relocated, (recordState relocated storage_ elm mark).raised⟩ = none :=
        if_neg fun hcaptured => by simp [hcommand] at hcaptured
      rw [hnone, Option.isSome_none, Bool.false_or]
      exact recorded_recordState_of_command hcommand
    | false =>
      rw [discards_of_captured hcommand, recordState_of_captured hcommand]
      cases hraised : (storage_.record relocated elm mark).raised with
      | true =>
        have hnone : accepted uiElm propertyKey ⟨.recordState elm mark relocated, true⟩ = none :=
          if_neg fun hcaptured => by simp at hcaptured
        rw [hnone, MarkStorage.recorded, MarkStorage.lookup_record_of_raised (h hcommand) hraised]
        rfl
      | false =>
        rw [MarkStorage.recorded_record (h hcommand) hraised]
        by_cases hfor : uiElm = elm ∧ propertyKey = mark.idi.sym
        · have haccepted : accepted uiElm propertyKey ⟨.recordState elm mark relocated, false⟩ = some mark :=
            if_pos ⟨hfor.1.symm, hfor.2.symm, hcommand, rfl⟩
          rw [if_pos hfor, haccepted]
          rfl
        · have hnone : accepted uiElm propertyKey ⟨.recordState elm mark relocated, false⟩ = none :=
            if_neg fun hcaptured => hfor ⟨hcaptured.1.symm, hcaptured.2.1.symm⟩
          rw [if_neg hfor, hnone]
          rfl

end StateRecorder

end Lumiera.Stage.Ctrl
