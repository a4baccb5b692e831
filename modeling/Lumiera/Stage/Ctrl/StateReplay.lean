import Lumiera.Stage.Ctrl.StateMapGrouping

/-! # What is recorded and replayed (`stage/ctrl/state-recorder.hpp`)

What the recorder holds after any sequence of calls is given by the history: the last mark accepted for an
element and a property, unless it was discarded since then. A replay sends what is recorded, each mark
once, in the order of a hash map, which is not specified. -/

namespace Lumiera.Stage.Ctrl

open List Lib.Diff RecorderEvent

universe u v

variable {ι : Type u} [DecidableEq ι] {τ : Type v} (H : Identities τ)

namespace StateRecorder

variable {storage_ : MarkStorage ι} {call : RecorderCall ι} {calls : List (RecorderCall ι)} {uiElm : ι}
  {propertyKey : String} {relocated : List Nat → Bool} {stateMark : GenNode}

/-! ## Sequences of calls -/

/-- The events of a sequence of calls. -/
def history (storage_ : MarkStorage ι) : List (RecorderCall ι) → List (RecorderEvent ι)
  | [] => []
  | call :: calls => ⟨call, (step storage_ call).raised⟩ :: history (step storage_ call).state calls

/-- Each mark can be assigned to one of the same type which is recorded by then. -/
def AllAssignable : MarkStorage ι → List (RecorderCall ι) → Prop
  | _, [] => True
  | storage_, call :: calls => Assignable storage_ call ∧ AllAssignable (step storage_ call).state calls

theorem run_append (before : List (RecorderCall ι)) :
    run storage_ (before ++ calls) = run (run storage_ before) calls := by
  induction before generalizing storage_ with
  | nil => rfl
  | cons call before ih => exact ih

theorem history_append (before : List (RecorderCall ι)) :
    history storage_ (before ++ calls) = history storage_ before ++ history (run storage_ before) calls := by
  induction before generalizing storage_ with
  | nil => rfl
  | cons call before ih => exact congrArg (List.cons _) ih

theorem AllAssignable.append {before : List (RecorderCall ι)} (h : AllAssignable storage_ (before ++ calls)) :
    AllAssignable storage_ before ∧ AllAssignable (run storage_ before) calls := by
  induction before generalizing storage_ with
  | nil => exact ⟨trivial, h⟩
  | cons call before ih => exact ⟨⟨h.1, (ih h.2).1⟩, (ih h.2).2⟩

theorem lastAccepted_append_singleton (events : List (RecorderEvent ι)) (event : RecorderEvent ι) :
    lastAccepted uiElm propertyKey (events ++ [event]) =
      if (event.accepted uiElm propertyKey).isSome || event.discards uiElm propertyKey
      then event.accepted uiElm propertyKey else lastAccepted uiElm propertyKey events := by
  unfold lastAccepted
  rw [reverse_append, reverse_singleton, singleton_append, find?_cons]
  cases hconcerned : (event.accepted uiElm propertyKey).isSome || event.discards uiElm propertyKey <;> rfl

/-- What is recorded is the last mark accepted, unless it was discarded since then. -/
theorem recorded_run (h : AllAssignable ∅ calls) :
    (run ∅ calls).recorded uiElm propertyKey = lastAccepted uiElm propertyKey (history ∅ calls) := by
  -- by induction on the calls from the last one, which decides if it concerns the property
  induction calls using List.reverseRecOn with
  | nil => rfl
  | append_singleton before call ih =>
    obtain ⟨hbefore, hcall, -⟩ := h.append
    rw [run_append, history_append]
    show (step (run ∅ before) call).state.recorded uiElm propertyKey =
      lastAccepted uiElm propertyKey (history ∅ before ++ [⟨call, (step (run ∅ before) call).raised⟩])
    rw [recorded_step hcall, lastAccepted_append_singleton, ih hbefore]

theorem mem_of_mem_history {event : RecorderEvent ι} (h : event ∈ history storage_ calls) : event.call ∈ calls := by
  induction calls generalizing storage_ with
  | nil => cases h
  | cons call calls ih =>
    rcases mem_cons.mp h with rfl | h
    · exact mem_cons_self
    · exact mem_cons_of_mem call (ih h)

theorem exists_call_of_lastAccepted (h : lastAccepted uiElm propertyKey (history storage_ calls) = some stateMark) :
    ∃ relocated, RecorderCall.recordState uiElm stateMark relocated ∈ calls := by
  obtain ⟨event, hfound, haccepted⟩ := Option.bind_eq_some_iff.mp h
  have hmem := mem_of_mem_history (mem_reverse.mp (mem_of_find?_eq_some hfound))
  obtain ⟨call, raised⟩ := event
  cases call with
  | clearState => cases haccepted
  | recordState elm mark relocated =>
    obtain ⟨⟨rfl, -⟩, hmark⟩ := Option.ite_none_right_eq_some.mp haccepted
    cases Option.some.inj hmark
    exact ⟨relocated, hmem⟩

/-! ## Replay -/

/-- **The messages carry the marks** recorded for the selected elements and properties, each of them exactly
once. -/
def Carries (storage_ : MarkStorage ι) (selected : ι → String → Prop) (messages : List (ι × GenNode)) : Prop :=
  (messages.map fun message => (message.1, message.2.idi.sym)).Nodup ∧
  ∀ uiElm stateMark, (uiElm, stateMark) ∈ messages ↔
    selected uiElm stateMark.idi.sym ∧ storage_.recorded uiElm stateMark.idi.sym = some stateMark

/-- The identity is built from the symbol and some type. -/
def Identified (stateMark : GenNode) : Prop := ∃ tag, stateMark.idi = H.id stateMark.idi.sym tag

omit [DecidableEq ι] in
theorem mem_replayPropertiesOf {entry : Sigma fun _ : ι => MarkSet} : (uiElm, stateMark) ∈ replayPropertiesOf entry ↔
    entry.1 = uiElm ∧ entry.2.find stateMark.idi.sym = some stateMark := by
  rw [replayPropertiesOf, mem_map, OrderedSet.find_eq_some_iff]
  constructor
  · rintro ⟨mark, hmark, heq⟩
    cases heq
    exact ⟨rfl, hmark, rfl⟩
  · rintro ⟨rfl, hmark, -⟩
    exact ⟨stateMark, hmark, rfl⟩

omit [DecidableEq ι] in
theorem nodup_replayPropertiesOf (entry : Sigma fun _ : ι => MarkSet) :
    ((replayPropertiesOf entry).map fun message => (message.1, message.2.idi.sym)).Nodup := by
  have hmap : (replayPropertiesOf entry).map (fun message => (message.1, message.2.idi.sym)) =
      (entry.2.elems.map fun mark => mark.idi.sym).map fun key => (entry.1, key) := by
    rw [replayPropertiesOf, map_map, map_map]
    rfl
  rw [hmap]
  exact entry.2.nodup_keys.map fun _ _ h => (Prod.mk.inj h).2

variable {entries : List (Sigma fun _ : ι => MarkSet)}

theorem recorded_iff_entry (hperm : entries.Perm storage_.entries) :
    storage_.recorded uiElm propertyKey = some stateMark ↔
      ∃ entry ∈ entries, entry.1 = uiElm ∧ entry.2.find propertyKey = some stateMark := by
  rw [MarkStorage.recorded, Option.bind_eq_some_iff]
  constructor
  · rintro ⟨stateSet, hlookup, hfind⟩
    exact ⟨⟨uiElm, stateSet⟩, hperm.mem_iff.mpr (AList.mem_lookup_iff.mp hlookup), rfl, hfind⟩
  · rintro ⟨⟨_, stateSet⟩, hentry, rfl, hfind⟩
    exact ⟨stateSet, AList.mem_lookup_iff.mpr (hperm.mem_iff.mp hentry), hfind⟩

omit [DecidableEq ι] in
theorem pairwise_ne_of_perm (hperm : entries.Perm storage_.entries) : entries.Pairwise fun a b => a.1 ≠ b.1 := by
  have hkeys : (entries.map Sigma.fst).Nodup := (hperm.map Sigma.fst).nodup_iff.mpr storage_.nodupKeys
  exact pairwise_map.mp hkeys

/-- All state is replayed, for all elements. -/
theorem carries_replayAllState (hperm : entries.Perm storage_.entries) :
    Carries storage_ (fun _ _ => True) (replayAllState entries) := by
  constructor
  · rw [replayAllState, map_flatMap, nodup_flatMap]
    refine ⟨fun entry _ => nodup_replayPropertiesOf entry, (pairwise_ne_of_perm hperm).imp fun {a b} hne => ?_⟩
    -- messages for different entries go to different elements
    intro pair ha hb
    obtain ⟨⟨elm, mark⟩, hmark, rfl⟩ := mem_map.mp ha
    obtain ⟨⟨elm', mark'⟩, hmark', heq⟩ := mem_map.mp hb
    have helm : elm' = elm := (Prod.mk.inj heq).1
    exact hne ((mem_replayPropertiesOf.mp hmark).1.trans
      (helm.symm.trans (mem_replayPropertiesOf.mp hmark').1.symm))
  · intro uiElm stateMark
    rw [replayAllState, mem_flatMap, recorded_iff_entry hperm]
    simp only [mem_replayPropertiesOf, true_and]

theorem carries_replayAllProperties (uiElm : ι) :
    Carries storage_ (fun elm _ => elm = uiElm) (replayAllProperties storage_ uiElm) := by
  unfold replayAllProperties
  cases hlookup : storage_.lookup uiElm with
  | none =>
    refine ⟨nodup_nil, fun elm stateMark => ⟨nofun, ?_⟩⟩
    rintro ⟨rfl, hrecorded⟩
    rw [MarkStorage.recorded, hlookup] at hrecorded
    cases hrecorded
  | some stateSet =>
    refine ⟨nodup_replayPropertiesOf ⟨uiElm, stateSet⟩, fun elm stateMark => ?_⟩
    rw [mem_replayPropertiesOf]
    constructor
    · rintro ⟨rfl, hfind⟩
      exact ⟨rfl, by rw [MarkStorage.recorded, hlookup]; exact hfind⟩
    · rintro ⟨rfl, hrecorded⟩
      rw [MarkStorage.recorded, hlookup] at hrecorded
      exact ⟨rfl, hrecorded⟩

variable {H}

theorem equals_refNO_self : (refNO H).equals (refNO H) = some true := by
  rw [refNO, GenNode.equals, if_pos (ID.sameID_self _), DataCap.matchData, DataCap.matchRecRef]
  rfl

theorem equals_refNO (h : Identified H stateMark) (hsym : stateMark.idi.sym ≠ "_NO_") :
    stateMark.equals (refNO H) = some false := by
  obtain ⟨idi, data⟩ := stateMark
  obtain ⟨tag, hid⟩ := h
  have hdifferent : ¬ idi.sameID (H.id "_NO_" H.recTag) = true := by
    intro hsame
    have hhash : idi.hash = H.buildHash "_NO_" H.recTag := beq_iff_eq.mp hsame
    rw [show idi = H.id idi.sym tag from hid] at hhash
    exact hsym (H.injective _ _ _ _ hhash).1
  rw [refNO, GenNode.equals, if_neg hdifferent]

omit [DecidableEq ι] in
theorem replayAllStateOf_eq (hno : propertyKey ≠ "_NO_")
    (hident : ∀ entry ∈ entries, ∀ mark, entry.2.find propertyKey = some mark → Identified H mark) :
    replayAllStateOf H propertyKey entries =
      some (entries.filterMap fun entry => (entry.2.find propertyKey).map fun mark => (entry.1, mark)) := by
  induction entries with
  | nil => rfl
  | cons entry entries ih =>
    have ih := ih fun e he => hident e (mem_cons_of_mem entry he)
    rw [replayAllStateOf, filterMap_cons]
    cases hfind : entry.2.find propertyKey with
    | none =>
      rw [Option.getD_none, equals_refNO_self]
      exact ih
    | some mark =>
      have hmark : mark.idi.sym ≠ "_NO_" := OrderedSet.key_of_find hfind ▸ hno
      rw [Option.getD_some, equals_refNO (hident entry mem_cons_self mark hfind) hmark]
      rw [ih]
      rfl

theorem carries_replayAllStateOf (hno : propertyKey ≠ "_NO_")
    (hperm : entries.Perm storage_.entries)
    (hident : ∀ uiElm mark, storage_.recorded uiElm propertyKey = some mark → Identified H mark) :
    ∃ messages, replayAllStateOf H propertyKey entries = some messages ∧
      Carries storage_ (fun _ key => key = propertyKey) messages := by
  refine ⟨_, replayAllStateOf_eq hno fun entry hentry mark hfind =>
    hident entry.1 mark ((recorded_iff_entry hperm).mpr ⟨entry, hentry, rfl, hfind⟩), ?_, ?_⟩
  · -- at most one message for each entry
    rw [map_filterMap, List.Nodup, pairwise_filterMap]
    refine (pairwise_ne_of_perm hperm).imp fun {a b} hne => ?_
    intro p hp q hq heq
    obtain ⟨_, ha, rfl⟩ := Option.map_eq_some_iff.mp hp
    obtain ⟨_, hb, rfl⟩ := Option.map_eq_some_iff.mp hq
    obtain ⟨mark, -, rfl⟩ := Option.map_eq_some_iff.mp ha
    obtain ⟨mark', -, rfl⟩ := Option.map_eq_some_iff.mp hb
    exact hne (Prod.mk.inj heq).1
  · intro uiElm stateMark
    rw [mem_filterMap]
    constructor
    · rintro ⟨entry, hentry, hmap⟩
      obtain ⟨mark, hfind, heq⟩ := Option.map_eq_some_iff.mp hmap
      cases heq
      have hkey : stateMark.idi.sym = propertyKey := (OrderedSet.find_eq_some_iff.mp hfind).2
      exact ⟨hkey, (recorded_iff_entry hperm).mpr ⟨entry, hentry, rfl, hkey ▸ hfind⟩⟩
    · rintro ⟨hkey, hrecorded⟩
      obtain ⟨entry, hentry, rfl, hfind⟩ := (recorded_iff_entry hperm).mp hrecorded
      exact ⟨entry, hentry, by rw [← hkey, hfind]; rfl⟩

/-! ## The recorder as a whole -/

/-- **Presentation state recording**: after any sequence of calls whose marks can be assigned to those of the
same type, the current state is the last mark accepted since marks were discarded, or else the "no" marker;
a mark is rejected just when the one recorded is of another type, and then nothing is changed; and each
replay sends the marks recorded, or those of one property or of one element, once each. -/
theorem run_records (calls : List (RecorderCall ι)) (h : AllAssignable ∅ calls)
    (hident : ∀ uiElm stateMark relocated, RecorderCall.recordState uiElm stateMark relocated ∈ calls →
      Identified H stateMark) :
    (∀ uiElm propertyKey, currentState H (run ∅ calls) uiElm propertyKey =
      (lastAccepted uiElm propertyKey (history ∅ calls)).getD (refNO H)) ∧
    (∀ before call after, calls = before ++ call :: after →
      ((step (run ∅ before) call).raised = true ↔ Rejects (run ∅ before) call) ∧
      ((step (run ∅ before) call).raised = true →
        ∀ uiElm, (step (run ∅ before) call).state.lookup uiElm = (run ∅ before).lookup uiElm)) ∧
    (∀ entries, entries.Perm (run ∅ calls).entries →
      Carries (run ∅ calls) (fun _ _ => True) (replayAllState entries) ∧
      ∀ propertyKey, propertyKey ≠ "_NO_" → ∃ messages, replayAllStateOf H propertyKey entries = some messages ∧
        Carries (run ∅ calls) (fun _ key => key = propertyKey) messages) ∧
    ∀ uiElm, Carries (run ∅ calls) (fun elm _ => elm = uiElm) (replayAllProperties (run ∅ calls) uiElm) := by
  refine ⟨fun uiElm propertyKey => ?_, ?_, fun entries hperm => ⟨carries_replayAllState hperm, ?_⟩,
    carries_replayAllProperties⟩
  · rw [currentState, MarkStorage.retrieve, recorded_run h]
  · rintro before call after rfl
    obtain ⟨-, hcall, -⟩ := h.append
    exact ⟨step_raised_iff hcall, fun hraised uiElm => lookup_step_of_raised hcall hraised⟩
  · intro propertyKey hno
    refine carries_replayAllStateOf hno hperm fun uiElm mark hrecorded => ?_
    rw [recorded_run h] at hrecorded
    obtain ⟨relocated, hmem⟩ := exists_call_of_lastAccepted hrecorded
    exact hident uiElm mark relocated hmem

end StateRecorder

/-! ## Marks rejected -/

open StateRecorder

/-- Identities of nodes of some types. -/
def typeIdentities : Identities ℕ where
  buildHash sym tag := Encodable.encode (sym.toList.map Char.toNat, tag)
  payload
    | 0 => .record
    | 1 => .text
    | _ => .plain .time
  recTag := 0
  payload_recTag := rfl
  injective sym tag sym' tag' heq := by
    have hpair := Prod.mk.inj (Encodable.encode_injective heq)
    have hinj : Function.Injective Char.toNat := fun c d hcd => Char.toNat_inj.mp hcd
    exact ⟨String.toList_inj.mp (map_injective_iff.mpr hinj hpair.1), hpair.2⟩

/-- A mark with a text. -/
def textMark (sym text : String) : GenNode := .mk (typeIdentities.id sym 1) (.text text)

/-- A mark with a time value. -/
def timeMark (sym : String) (val : Int) : GenNode := .mk (typeIdentities.id sym 2) (.plain .time val)

/-- A time value, a text which is overwritten, a mark of another type, and a second element. -/
def sampleCalls : List (RecorderCall ℕ) :=
  [.recordState 1 (timeMark "position" 5) fun _ => false,
    .recordState 1 (textMark "Message" "ready") fun _ => false,
    .recordState 1 (textMark "Message" "steady") fun _ => false,
    .recordState 1 (textMark "position" "left") fun _ => false,
    .recordState 2 (textMark "position" "left") fun _ => false,
    .recordState 2 (textMark "clearMsg" "") fun _ => false]

theorem assignable_text {storage_ : MarkStorage ℕ} {uiElm : ℕ} {sym text : String} :
    Assignable storage_ (.recordState uiElm (textMark sym text) fun _ => false) :=
  assignable_of_isAssignable (show PayloadType.text ≠ .record by decide) rfl

theorem run_records_sample :
    (∀ uiElm propertyKey, currentState typeIdentities (run ∅ sampleCalls) uiElm propertyKey =
      (lastAccepted uiElm propertyKey (history ∅ sampleCalls)).getD (refNO typeIdentities)) ∧
    (∀ before call after, sampleCalls = before ++ call :: after →
      ((step (run ∅ before) call).raised = true ↔
        Rejects (run ∅ before) call) ∧
      ((step (run ∅ before) call).raised = true → ∀ uiElm,
        (step (run ∅ before) call).state.lookup uiElm =
          (run ∅ before).lookup uiElm)) ∧
    (∀ entries, entries.Perm (run ∅ sampleCalls).entries →
      Carries (run ∅ sampleCalls) (fun _ _ => True) (replayAllState entries) ∧
      ∀ propertyKey, propertyKey ≠ "_NO_" →
        ∃ messages, replayAllStateOf typeIdentities propertyKey entries = some messages ∧
          Carries (run ∅ sampleCalls) (fun _ key => key = propertyKey) messages) ∧
    ∀ uiElm, Carries (run ∅ sampleCalls) (fun elm _ => elm = uiElm)
      (replayAllProperties (run ∅ sampleCalls) uiElm) := by
  refine run_records sampleCalls ?_ ?_
  · refine ⟨fun _ _ hpresent => ?_, assignable_text, assignable_text, assignable_text, assignable_text,
      assignable_text, trivial⟩
    cases hpresent
  · intro uiElm stateMark relocated hmem
    simp only [sampleCalls, mem_cons, not_mem_nil, or_false] at hmem
    obtain ⟨-, rfl, -⟩ | ⟨-, rfl, -⟩ | ⟨-, rfl, -⟩ | ⟨-, rfl, -⟩ | ⟨-, rfl, -⟩ | ⟨-, rfl, -⟩ := hmem
    · exact ⟨2, rfl⟩
    · exact ⟨1, rfl⟩
    · exact ⟨1, rfl⟩
    · exact ⟨1, rfl⟩
    · exact ⟨1, rfl⟩
    · exact ⟨1, rfl⟩

/-- **A time value is not overwritten** by a later one, which is rejected though it has the same type. -/
theorem time_not_overwritten :
    let before := run ∅ [.recordState 1 (timeMark "position" 5) fun _ => false]
    let call : RecorderCall ℕ := .recordState 1 (timeMark "position" 6) fun _ => false
    ¬ ((step before call).raised = true ↔ Rejects before call) ∧
      (step before call).state.recorded 1 "position" = some (timeMark "position" 5) := by
  intro before call
  have hrecorded : before.recorded 1 "position" = some (timeMark "position" 5) := by
    refine recorded_run ⟨fun _ _ hpresent => ?_, trivial⟩
    cases hpresent
  have hrefused : (timeMark "position" 5).copyAssign (fun _ => false) (timeMark "position" 6) =
      ⟨timeMark "position" 5, true⟩ := by
    rw [GenNode.copyAssign_of_not_record (by decide), if_neg (by decide)]
  have hcaptured : isCommand (timeMark "position" 6) = false := by decide
  have hstep : step before call = before.record (fun _ => false) 1 (timeMark "position" 6) :=
    recordState_of_captured hcaptured
  obtain ⟨hnone, -⟩ | ⟨present, hpresent, heq⟩ :=
    MarkStorage.record_cases (fun _ => false) before 1 (timeMark "position" 6)
  · exact absurd (hrecorded.symm.trans hnone) (by simp)
  · obtain rfl : timeMark "position" 5 = present := Option.some.inj (hrecorded.symm.trans hpresent)
    rw [hstep, heq, hrefused]
    constructor
    · intro hclaim
      obtain ⟨-, present, hpresent', htype⟩ := hclaim.mp rfl
      exact htype (Option.some.inj (hpresent.symm.trans hpresent') ▸ rfl)
    · rw [MarkStorage.recorded_insert, if_pos rfl, MarkStorage.updated, OrderedSet.find_modify,
        MarkStorage.find_getD, hpresent]
      exact congrArg (fun assigned : Performed GenNode => some assigned.state) hrefused

end Lumiera.Stage.Ctrl
