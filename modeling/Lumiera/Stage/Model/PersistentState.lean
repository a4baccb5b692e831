import Lumiera.Base.Machine
import Lumiera.Stage.Model.Tangible

/-! # Agreement of captured state and elements

As long as the elements note what they changed into, the marks captured by the state recorder agree
with the elements: whatever differs from the initial state has been captured, and nothing captured
contradicts the element. Then a replay into new elements restores their state, and a replay to the
original ones has no effect. A mark which collapses an element breaks the agreement, since it is
noted as an expansion. -/

namespace Lumiera.Stage.Model

open Function List Ctrl StateMapGroupingStorage

universe u

variable {ι : Type u} [DecidableEq ι]

/-! ## Marks and elements -/

/-- **The mark says what the element shows.** -/
inductive Shows (hooks : Hooks) (elm : Element) : StateMark → Prop
  | expand : Shows hooks elm ⟨MARK_expand, .bool elm.expanded⟩
  | message (text : String) : hooks.msg text = elm.message → Shows hooks elm ⟨MARK_Message, .text text⟩
  | error (text : String) : hooks.err text = elm.error → Shows hooks elm ⟨MARK_Error, .text text⟩

/-- The element differs from the initial state in this property. -/
def Differs (elm : Element) (sym : String) : Prop :=
  (sym = MARK_expand ∧ elm.expanded = true) ∨ (sym = MARK_Message ∧ elm.message ≠ none) ∨
    (sym = MARK_Error ∧ elm.error ≠ none)

variable {elm : Element}

theorem differs_expand : Differs elm MARK_expand ↔ elm.expanded = true := by
  simp [Differs, MARK_expand, MARK_Message, MARK_Error]

theorem differs_message : Differs elm MARK_Message ↔ elm.message ≠ none := by
  simp [Differs, MARK_expand, MARK_Message, MARK_Error]

theorem differs_error : Differs elm MARK_Error ↔ elm.error ≠ none := by
  simp [Differs, MARK_expand, MARK_Message, MARK_Error]

/-- **Marks captured agree with an element**: each one says what the element shows, and there is one
for each property which differs from the initial state. -/
structure Agrees (hooks : Hooks) (elm : Element) (marks : List StateMark) : Prop where
  shows : ∀ m ∈ marks, Shows hooks elm m
  covers : ∀ sym, Differs elm sym → ∃ m ∈ marks, m.sym = sym

/-- What has been captured for the identity of an element agrees with it; for other identities there
is nothing. -/
def AgreesAt (hooks : Hooks) (elm : Option Element) (marks : List StateMark) : Prop :=
  match elm with
  | none => marks = []
  | some elm => Agrees hooks elm marks

/-- **The record agrees with the elements.** -/
def Agreement (hooks : ι → Hooks) (bus : UiBus ι) : Prop :=
  ∀ id, AgreesAt (hooks id) (bus.routingTable_ id) (bus.storage_.marksOf id)

variable {hooks : Hooks}

theorem agrees_initial : Agrees hooks {} [] where
  shows := by simp
  covers := by simp [Differs]

/-- The second element shows the same as the first in all properties but one. -/
structure SameExcept (sym : String) (hooks : Hooks) (elm elm' : Element) : Prop where
  shows : ∀ m : StateMark, m.sym ≠ sym → Shows hooks elm m → Shows hooks elm' m
  differs : ∀ s, s ≠ sym → Differs elm' s → Differs elm s

theorem sameExcept_expanded (yes : Bool) :
    SameExcept MARK_expand hooks elm { elm with expanded := yes } where
  shows := by
    rintro _ hne (_ | ⟨text, h⟩ | ⟨text, h⟩)
    · exact absurd rfl hne
    · exact .message text h
    · exact .error text h
  differs := by
    rintro s hne (⟨rfl, -⟩ | h | h)
    · exact absurd rfl hne
    · exact .inr (.inl h)
    · exact .inr (.inr h)

theorem sameExcept_message (message : Option String) :
    SameExcept MARK_Message hooks elm { elm with message := message } where
  shows := by
    rintro _ hne (_ | ⟨text, h⟩ | ⟨text, h⟩)
    · exact .expand
    · exact absurd rfl hne
    · exact .error text h
  differs := by
    rintro s hne (h | ⟨rfl, -⟩ | h)
    · exact .inl h
    · exact absurd rfl hne
    · exact .inr (.inr h)

theorem sameExcept_error (error : Option String) :
    SameExcept MARK_Error hooks elm { elm with error := error } where
  shows := by
    rintro _ hne (_ | ⟨text, h⟩ | ⟨text, h⟩)
    · exact .expand
    · exact .message text h
    · exact absurd rfl hne
  differs := by
    rintro s hne (h | h | ⟨rfl, -⟩)
    · exact .inl h
    · exact .inr (.inl h)
    · exact absurd rfl hne

/-! ## What is noted keeps the agreement -/

section Note

variable {hooks : Hooks} {elm elm' : Element} {storage : StateMapGroupingStorage ι} {id : ι}

theorem Agrees.record {mark : StateMark} (h : Agrees hooks elm (storage.marksOf id))
    (hframe : SameExcept mark.sym hooks elm elm') (hmark : Shows hooks elm' mark) :
    Agrees hooks elm' ((storage.record id mark).marksOf id) where
  shows m hm := by
    rcases mem_marksOf_record.mp hm with rfl | ⟨hm, hne⟩
    · exact hmark
    · exact hframe.shows m hne (h.shows m hm)
  covers sym hsym := by
    by_cases hsame : sym = mark.sym
    · exact ⟨mark, mem_marksOf_record.mpr (.inl rfl), hsame.symm⟩
    · obtain ⟨m, hm, rfl⟩ := h.covers sym (hframe.differs sym hsame hsym)
      exact ⟨m, mem_marksOf_record.mpr (.inr ⟨hm, hsame⟩), rfl⟩

theorem Agrees.clearProperty {key : String} (h : Agrees hooks elm (storage.marksOf id))
    (hframe : SameExcept key hooks elm elm') (hkey : ¬ Differs elm' key) :
    Agrees hooks elm' ((storage.clearProperty id key).marksOf id) where
  shows m hm := by
    obtain ⟨hm, hne⟩ := mem_marksOf_clearProperty.mp hm
    exact hframe.shows m hne (h.shows m hm)
  covers sym hsym := by
    have hne : sym ≠ key := fun heq => hkey (heq ▸ hsym)
    obtain ⟨m, hm, rfl⟩ := h.covers sym (hframe.differs sym hne hsym)
    exact ⟨m, mem_marksOf_clearProperty.mpr ⟨hm, hne⟩, rfl⟩

theorem agrees_clearState : Agrees hooks {} ((storage.clearState id).marksOf id) := by
  rw [marksOf_clearState]
  exact agrees_initial

end Note

section Steps

variable {hooks : ι → Hooks} {bus : UiBus ι} {id : ι}

section Agreement

variable (h : Agreement hooks bus)

include h

/-- **Invoking a hook keeps the agreement**, if it reports each change, and what is noted then agrees with the
element. -/
theorem Agreement.invoke {hook : Element → Element × Bool} {mark : StateMark}
    (hsame : ∀ elm, (hook elm).2 = false → (hook elm).1 = elm)
    (hnote : ∀ elm, bus.routingTable_ id = some elm → (hook elm).2 = true →
      Agrees (hooks id) elm (bus.storage_.marksOf id) →
        Agrees (hooks id) (hook elm).1 ((bus.storage_.recordState id mark).marksOf id)) :
    Agreement hooks (bus.invoke id hook mark) := by
  cases helm : bus.routingTable_ id with
  | none => simpa only [UiBus.invoke, helm] using h
  | some elm =>
    have hat : Agrees (hooks id) elm (bus.storage_.marksOf id) := by simpa only [AgreesAt, helm] using h id
    rw [UiBus.invoke_eq helm]
    intro id'
    by_cases hid : id' = id
    · subst hid
      simp only [update_self]
      cases hchanged : (hook elm).2 with
      | false => rwa [hsame elm hchanged]
      | true => exact hnote elm helm hchanged hat
    · have hother := h id'
      simp only [update_of_ne hid]
      cases hchanged : (hook elm).2 with
      | false => exact hother
      | true => simpa only [if_pos, marksOf_recordState_of_ne hid] using hother

theorem Agreement.reset : Agreement hooks (bus.reset id) := by
  refine h.invoke (fun elm hsame => ?_) fun elm _ _ _ => ?_
  · have hinitial : elm = {} := by simpa [doReset] using hsame
    rw [hinitial, doReset]
  · exact agrees_clearState

theorem Agreement.clearErr : Agreement hooks (bus.clearErr id) := by
  refine h.invoke (fun elm hsame => ?_) fun elm _ _ hat => ?_
  · have hnone : elm.error = none := by simpa [doClearErr] using hsame
    simp [doClearErr, ← hnone]
  · exact hat.clearProperty (sameExcept_error none) (by simp [differs_error, doClearErr])

theorem Agreement.clearMsg : Agreement hooks (bus.clearMsg id) := by
  refine h.invoke (fun elm hsame => ?_) fun elm _ _ hat => ?_
  · have hnone : elm.message = none := by simpa [doClearMsg] using hsame
    simp [doClearMsg, ← hnone]
  · exact hat.clearProperty (sameExcept_message none) (by simp [differs_message, doClearMsg])

theorem Agreement.markMsg {message : String} :
    Agreement hooks (bus.markMsg hooks id message) := by
  refine h.invoke (fun elm hsame => ?_) fun elm _ _ hat => ?_
  · have hshown : (hooks id).msg message = elm.message := by simpa [doMsg] using hsame
    simp [doMsg, hshown]
  · exact hat.record (sameExcept_message _) (.message message rfl)

theorem Agreement.markErr {error : String} :
    Agreement hooks (bus.markErr hooks id error) := by
  refine h.invoke (fun elm hsame => ?_) fun elm _ _ hat => ?_
  · have hshown : (hooks id).err error = elm.error := by simpa [doErr] using hsame
    simp [doErr, hshown]
  · exact hat.record (sameExcept_error _) (.error error rfl)

end Agreement

theorem doExpand_eq (yes : Bool) (elm : Element) :
    doExpand yes elm = ({ elm with expanded := yes }, decide (elm.expanded ≠ yes)) := by
  unfold doExpand expander
  by_cases h : elm.expanded = yes
  · subst h; simp
  · simp [h]

theorem Agreement.expand {yes noted : Bool} (h : Agreement hooks bus)
    (hnoted : ∀ elm, bus.routingTable_ id = some elm → elm.expanded ≠ yes → noted = yes) :
    Agreement hooks (bus.invoke id (doExpand yes) ⟨MARK_expand, .bool noted⟩) := by
  refine h.invoke (fun elm hsame => ?_) fun elm helm hchanged hat => ?_
  · have hshown : elm.expanded = yes := by simpa [doExpand_eq] using hsame
    simp [doExpand_eq, ← hshown]
  · have hdiffers : elm.expanded ≠ yes := by simpa [doExpand_eq] using hchanged
    obtain rfl := hnoted elm helm hdiffers
    rw [doExpand_eq]
    exact hat.record (sameExcept_expanded noted) .expand

theorem Agreement.doMark {bus' : UiBus ι} {sym : String} {data : Payload} (h : Agreement hooks bus)
    (hkept : (⟨sym, data⟩ : StateMark) = ⟨MARK_expand, .bool false⟩ →
      ∀ elm, bus.routingTable_ id = some elm → elm.expanded = false)
    (hmark : bus.doMark id ⟨sym, data⟩ = some bus') : Agreement hooks bus' := by
  unfold UiBus.doMark at hmark
  split at hmark
  · next hsym =>
      split at hmark
      · next yes hdata =>
          cases hmark
          refine h.expand fun elm' helm' hdiffers => ?_
          cases yes with
          | true => rfl
          | false =>
            simp only at hsym hdata
            have hcollapsed : elm'.expanded = false := hkept (by rw [hsym, hdata]) elm' helm'
            exact absurd hcollapsed hdiffers
      · cases hmark
  · split at hmark
    · cases hmark
      exact h.reset
    · split at hmark
      · cases hmark
        exact h.clearMsg
      · split at hmark
        · cases hmark
          exact h.clearErr
        · cases hmark
          exact h

/-- A mark keeps the agreement, unless it collapses an element which is expanded. -/
theorem Agreement.mark {bus' : UiBus ι} {m : StateMark} (h : Agreement hooks bus)
    (hkept : m = ⟨MARK_expand, .bool false⟩ → ∀ elm, bus.routingTable_ id = some elm → elm.expanded = false)
    (hmark : bus.mark hooks id m = some bus') : Agreement hooks bus' := by
  cases helm : bus.routingTable_ id with
  | none =>
    simp only [UiBus.mark, helm, Option.some.injEq] at hmark
    exact hmark ▸ h
  | some elm =>
    simp only [UiBus.mark, helm, UiBus.tangibleMark] at hmark
    split at hmark
    · cases hmark
      exact h
    · split at hmark
      · split at hmark
        · cases hmark
          exact h.markErr
        · cases hmark
      · split at hmark
        · split at hmark
          · cases hmark
            exact h.markMsg
          · cases hmark
        · exact h.doMark hkept hmark

end Steps

/-! ## Replay to the original elements -/

variable {a : UiBus.Action ι}

section Replay

variable {hooks : ι → Hooks} {bus : UiBus ι} {id : ι} {m : StateMark}

theorem mark_of_shows (helm : bus.routingTable_ id = some elm) (hm : Shows (hooks id) elm m) :
    bus.mark hooks id m = some bus := by
  have hself : update bus.routingTable_ id (some elm) = bus.routingTable_ := by
    rw [← helm, update_eq_self]
  have hunchanged : ∀ {hook : Element → Element × Bool} {note : StateMark}, hook elm = (elm, false) →
      bus.invoke id hook note = bus := by
    intro hook note hhook
    rw [UiBus.invoke_eq helm, hhook, hself]
    rfl
  simp only [UiBus.mark, helm]
  cases hm with
  | expand =>
    have hhook : doExpand elm.expanded elm = (elm, false) := by simp [doExpand_eq]
    simp [UiBus.tangibleMark, UiBus.doMark, MARK_expand, MARK_Flash, MARK_Error, MARK_Message,
      hunchanged hhook]
  | message text hshown =>
    have hhook : doMsg (hooks id) text elm = (elm, false) := by simp [doMsg, hshown]
    simp [UiBus.tangibleMark, UiBus.markMsg, MARK_Error, MARK_Message, hunchanged hhook]
  | error text hshown =>
    have hhook : doErr (hooks id) text elm = (elm, false) := by simp [doErr, hshown]
    simp [UiBus.tangibleMark, UiBus.markErr, hunchanged hhook]

theorem Agreement.mark_captured (h : Agreement hooks bus) (hm : m ∈ bus.storage_.marksOf id) :
    bus.mark hooks id m = some bus := by
  have hat := h id
  cases helm : bus.routingTable_ id with
  | none =>
    rw [helm] at hat
    rw [show bus.storage_.marksOf id = [] from hat] at hm
    cases hm
  | some elm =>
    rw [helm] at hat
    exact mark_of_shows helm (Agrees.shows hat m hm)

/-- The replays. -/
def UiBus.Action.IsReplay : UiBus.Action ι → Prop
  | .replayState .. | .replayAllState | .replayAllStateOf .. | .replayAllProperties .. => True
  | _ => False

/-- A replay to the original elements changes neither them nor the record. -/
theorem Agreement.replay (h : Agreement hooks bus) (ha : a.IsReplay) : bus.perform hooks a = some bus := by
  have hentry : ∀ entry ∈ bus.storage_.entries, ∀ m ∈ entry.2.marks, bus.mark hooks entry.1 m = some bus :=
    fun entry hentry m hm => h.mark_captured (by rwa [marksOf_entry hentry])
  cases a with
  | replayState uiElm propertyKey =>
    simp only [UiBus.perform, UiBus.replayState]
    split
    · rfl
    · next state hstate => exact h.mark_captured (retrieve_eq_some.mp hstate).1
  | replayAllState =>
    exact Machine.foldlM_fixed fun entry he => Machine.foldlM_fixed fun m hm => hentry entry he m hm
  | replayAllStateOf propertyKey =>
    refine Machine.foldlM_fixed fun entry he => ?_
    split
    · rfl
    · next state hstate => exact hentry entry he state (StateData.findProperty_eq_some.mp hstate).1
  | replayAllProperties uiElm =>
    simp only [UiBus.perform, UiBus.replayAllProperties]
    split
    · rfl
    · next data hdata =>
        have he : (⟨uiElm, data⟩ : Sigma fun _ : ι => StateData) ∈ bus.storage_.entries :=
          AList.mem_lookup_iff.mp hdata
        exact Machine.foldlM_fixed fun m hm => hentry _ he m hm
  | _ => cases ha

theorem Agreement.perm (h : Agreement hooks bus) {table : StateMapGroupingStorage ι}
    (hperm : table.entries.Perm bus.storage_.entries) : Agreement hooks { bus with storage_ := table } := by
  intro id
  rw [marksOf_perm hperm]
  exact h id

end Replay

/-! ## Replay into new elements -/

/-- Two elements show the same in one property. -/
structure SameAt (sym : String) (elm elm' : Element) : Prop where
  expanded : sym = MARK_expand → elm.expanded = elm'.expanded
  message : sym = MARK_Message → elm.message = elm'.message
  error : sym = MARK_Error → elm.error = elm'.error

theorem eq_of_sameAt {elm' : Element} (h : ∀ sym, SameAt sym elm elm') : elm = elm' := by
  obtain ⟨expanded, message, error⟩ := elm
  obtain rfl := (h MARK_expand).expanded rfl
  obtain rfl := (h MARK_Message).message rfl
  obtain rfl := (h MARK_Error).error rfl
  rfl

theorem sameAt_initial {sym : String} (h : ¬ Differs elm sym) : SameAt sym {} elm where
  expanded := by rintro rfl; simpa [differs_expand] using h
  message := by rintro rfl; simpa [differs_message, eq_comm] using h
  error := by rintro rfl; simpa [differs_error, eq_comm] using h

section Restore

variable {hooks : ι → Hooks} {target bus : UiBus ι} {id : ι} {m : StateMark}

/-- **What a captured mark does to an element** which is still in its initial state in this
property, or shows the same already: it then shows what the mark says, and nothing else is noted
than this mark. -/
theorem mark_restores {elm' : Element} (helm' : bus.routingTable_ id = some elm')
    (hm : Shows (hooks id) elm m) (hstate : SameAt m.sym elm' elm ∨ SameAt m.sym elm' {}) :
    ∃ restored changed,
      bus.mark hooks id m = some ⟨update bus.routingTable_ id (some restored),
        if changed = true then bus.storage_.record id m else bus.storage_⟩ ∧
      SameAt m.sym restored elm ∧ ∀ sym, sym ≠ m.sym → ∀ other, SameAt sym elm' other →
        SameAt sym restored other := by
  simp only [UiBus.mark, helm']
  cases hm with
  | expand =>
    refine ⟨{ elm' with expanded := elm.expanded }, decide (elm'.expanded ≠ elm.expanded), ?_, ?_, ?_⟩
    · have hnoted : elm'.expanded ≠ elm.expanded → elm.expanded = true := by
        intro hdiffers
        rcases hstate with hsame | hinitial
        · exact absurd (hsame.expanded rfl) hdiffers
        · have hcollapsed : elm'.expanded = false := hinitial.expanded rfl
          simpa [hcollapsed] using hdiffers
      by_cases hdiffers : elm'.expanded = elm.expanded
      · simp [UiBus.tangibleMark, UiBus.doMark, UiBus.invoke_eq helm', doExpand_eq, MARK_expand, MARK_Flash,
          MARK_Error, MARK_Message, hdiffers]
      · simp [UiBus.tangibleMark, UiBus.doMark, UiBus.invoke_eq helm', doExpand_eq, MARK_expand, MARK_Flash,
          MARK_Error, MARK_Message, hnoted hdiffers, recordState, MARK_reset, MARK_clearErr, MARK_clearMsg]
    · exact ⟨fun _ => rfl, by simp [MARK_expand, MARK_Message], by simp [MARK_expand, MARK_Error]⟩
    · rintro sym hne other ⟨-, hmessage, herror⟩
      exact ⟨fun heq => absurd heq hne, hmessage, herror⟩
  | message text hshown =>
    refine ⟨{ elm' with message := elm.message }, decide (elm.message ≠ elm'.message), ?_, ?_, ?_⟩
    · simp [UiBus.tangibleMark, UiBus.markMsg, UiBus.invoke_eq helm', doMsg, hshown, MARK_Flash, MARK_Error,
        MARK_Message, recordState, MARK_reset, MARK_clearErr, MARK_clearMsg]
    · exact ⟨by simp [MARK_expand, MARK_Message], fun _ => rfl, by simp [MARK_Message, MARK_Error]⟩
    · rintro sym hne other ⟨hexpanded, -, herror⟩
      exact ⟨hexpanded, fun heq => absurd heq hne, herror⟩
  | error text hshown =>
    refine ⟨{ elm' with error := elm.error }, decide (elm.error ≠ elm'.error), ?_, ?_, ?_⟩
    · simp [UiBus.tangibleMark, UiBus.markErr, UiBus.invoke_eq helm', doErr, hshown, MARK_Flash, MARK_Error,
        recordState, MARK_reset, MARK_clearErr, MARK_clearMsg]
    · exact ⟨by simp [MARK_expand, MARK_Error], by simp [MARK_Message, MARK_Error], fun _ => rfl⟩
    · rintro sym hne other ⟨hexpanded, hmessage, -⟩
      exact ⟨hexpanded, hmessage, fun heq => absurd heq hne⟩

/-- **A replay in progress**: the record is that of the target; each element shows what the target
shows, save for properties still in the initial state for which a mark is yet to be replayed. -/
structure Restoring (target : UiBus ι) (todo : List (ι × StateMark)) (bus : UiBus ι) : Prop where
  marks : ∀ id m, m ∈ bus.storage_.marksOf id ↔ m ∈ target.storage_.marksOf id
  connected : ∀ id, bus.routingTable_ id = none ↔ target.routingTable_ id = none
  elements : ∀ id elm elm', target.routingTable_ id = some elm → bus.routingTable_ id = some elm' → ∀ sym,
    SameAt sym elm' elm ∨ (SameAt sym elm' {} ∧ ∃ m, (id, m) ∈ todo ∧ m.sym = sym)

/-- One mark replayed. -/
theorem Restoring.step {todo : List (ι × StateMark)} (h : Restoring target ((id, m) :: todo) bus)
    (htarget : Agreement hooks target) (hm : m ∈ target.storage_.marksOf id) :
    ∃ bus', bus.mark hooks id m = some bus' ∧ Restoring target todo bus' := by
  have hat := htarget id
  cases helm : target.routingTable_ id with
  | none =>
    rw [helm] at hat
    rw [show target.storage_.marksOf id = [] from hat] at hm
    cases hm
  | some elm =>
    rw [helm] at hat
    have hshows : Shows (hooks id) elm m := Agrees.shows hat m hm
    obtain ⟨elm', helm'⟩ : ∃ elm', bus.routingTable_ id = some elm' := by
      apply Option.ne_none_iff_exists'.mp
      rw [ne_eq, h.connected id, helm]
      simp
    have hstate : SameAt m.sym elm' elm ∨ SameAt m.sym elm' {} :=
      (h.elements id elm elm' helm helm' m.sym).imp_right And.left
    obtain ⟨restored, changed, hmark, hsame, hothers⟩ := mark_restores helm' hshows hstate
    refine ⟨_, hmark, ⟨fun id' n => ?_, fun id' => ?_, fun id' e e' he he' sym => ?_⟩⟩
    · -- noting the mark once more does not change the record
      rw [← h.marks id' n]
      cases changed with
      | false => simp
      | true =>
        by_cases hid : id' = id
        · subst hid
          have hcaptured : m ∈ bus.storage_.marksOf id' := (h.marks id' m).mpr hm
          simp only [if_pos, mem_marksOf_record]
          constructor
          · rintro (rfl | ⟨hn, -⟩)
            · exact hcaptured
            · exact hn
          · intro hn
            by_cases hsym : n.sym = m.sym
            · exact .inl (eq_of_mem_marksOf hn hcaptured hsym)
            · exact .inr ⟨hn, hsym⟩
        · have hnote : bus.storage_.record id m = bus.storage_.recordState id m := by
            cases hshows <;> simp [recordState, MARK_reset, MARK_clearErr, MARK_clearMsg, MARK_expand,
              MARK_Message, MARK_Error]
          simp only [if_pos, hnote, marksOf_recordState_of_ne hid]
    · by_cases hid : id' = id
      · subst hid
        simp [helm]
      · simp only [update_of_ne hid]
        exact h.connected id'
    · by_cases hid : id' = id
      · subst hid
        simp only [update_self, Option.some.injEq] at he'
        subst he'
        obtain rfl := Option.some.inj (helm.symm.trans he)
        by_cases hsym : sym = m.sym
        · exact .inl (hsym ▸ hsame)
        · rcases h.elements id' elm elm' helm helm' sym with hdone | ⟨hinitial, n, hn, hnsym⟩
          · exact .inl (hothers sym hsym _ hdone)
          · rcases mem_cons.mp hn with hfirst | hn
            · cases hfirst
              exact absurd hnsym.symm hsym
            · exact .inr ⟨hothers sym hsym _ hinitial, n, hn, hnsym⟩
      · simp only [update_of_ne hid] at he'
        rcases h.elements id' e e' he he' sym with hdone | ⟨hinitial, n, hn, hnsym⟩
        · exact .inl hdone
        · rcases mem_cons.mp hn with hfirst | hn
          · cases hfirst
            exact absurd rfl hid
          · exact .inr ⟨hinitial, n, hn, hnsym⟩

theorem Restoring.marks_replayed {marks : List StateMark} {todo : List (ι × StateMark)}
    (h : Restoring target (marks.map (id, ·) ++ todo) bus) (htarget : Agreement hooks target)
    (hmarks : ∀ m ∈ marks, m ∈ target.storage_.marksOf id) :
    ∃ bus', marks.foldlM (fun bus m => bus.mark hooks id m) bus = some bus' ∧ Restoring target todo bus' := by
  induction marks generalizing bus with
  | nil => exact ⟨bus, rfl, h⟩
  | cons m marks ih =>
    obtain ⟨next, hstep, hnext⟩ := h.step htarget (hmarks m mem_cons_self)
    obtain ⟨bus', hrest, hdone⟩ := ih hnext fun n hn => hmarks n (mem_cons_of_mem m hn)
    refine ⟨bus', ?_, hdone⟩
    rw [foldlM_cons, hstep]
    exact hrest

theorem Restoring.entries_replayed {entries : List (Sigma fun _ : ι => StateData)}
    (h : Restoring target (entries.flatMap fun entry => entry.2.marks.map (entry.1, ·)) bus)
    (htarget : Agreement hooks target)
    (hentries : ∀ entry ∈ entries, ∀ m ∈ entry.2.marks, m ∈ target.storage_.marksOf entry.1) :
    ∃ bus', entries.foldlM (fun bus entry => bus.replayPropertiesOf hooks entry) bus = some bus' ∧
      Restoring target [] bus' := by
  induction entries generalizing bus with
  | nil => exact ⟨bus, rfl, h⟩
  | cons entry entries ih =>
    obtain ⟨next, hstep, hnext⟩ := h.marks_replayed htarget (hentries entry mem_cons_self)
    obtain ⟨bus', hrest, hdone⟩ := ih hnext fun e he => hentries e (mem_cons_of_mem entry he)
    refine ⟨bus', ?_, hdone⟩
    rw [foldlM_cons, UiBus.replayPropertiesOf, hstep]
    exact hrest

theorem Restoring.done (h : Restoring target [] bus) : bus.routingTable_ = target.routingTable_ := by
  funext id
  cases helm : target.routingTable_ id with
  | none => exact (h.connected id).mpr helm
  | some elm =>
    cases helm' : bus.routingTable_ id with
    | none => rw [(h.connected id).mp helm'] at helm; cases helm
    | some elm' =>
      congr 1
      refine eq_of_sameAt fun sym => ?_
      rcases h.elements id elm elm' helm helm' sym with hsame | ⟨-, m, hm, -⟩
      · exact hsame
      · cases hm

end Restore

/-- New elements of the same identities, connected to the bus in place of the original ones. -/
def UiBus.renewed (bus : UiBus ι) : UiBus ι :=
  { bus with routingTable_ := fun id => (bus.routingTable_ id).map fun _ => {} }

/-- Replaying the captured state into new elements restores the elements, and keeps the record. -/
theorem Agreement.restore {hooks : ι → Hooks} {bus : UiBus ι} (h : Agreement hooks bus) :
    ∃ bus', bus.renewed.replayAllState hooks = some bus' ∧ bus'.routingTable_ = bus.routingTable_ ∧
      ∀ id m, m ∈ bus'.storage_.marksOf id ↔ m ∈ bus.storage_.marksOf id := by
  have hbegin : Restoring bus (bus.storage_.entries.flatMap fun entry => entry.2.marks.map (entry.1, ·))
      bus.renewed := by
    refine ⟨fun id m => Iff.rfl, fun id => by simp [UiBus.renewed], fun id elm elm' helm helm' sym => ?_⟩
    have hnew : elm' = {} := by simpa [UiBus.renewed, helm, eq_comm] using helm'
    subst hnew
    by_cases hsym : Differs elm sym
    · have hat := h id
      rw [helm] at hat
      obtain ⟨m, hm, hmsym⟩ := Agrees.covers hat sym hsym
      obtain ⟨entry, hentry, rfl, hmentry⟩ := exists_entry hm
      refine .inr ⟨⟨fun _ => rfl, fun _ => rfl, fun _ => rfl⟩, m, ?_, hmsym⟩
      exact mem_flatMap.mpr ⟨entry, hentry, mem_map.mpr ⟨m, hmentry, rfl⟩⟩
    · exact .inl (sameAt_initial hsym)
  obtain ⟨bus', hreplay, hdone⟩ := hbegin.entries_replayed h fun entry hentry m hm => by
    rwa [marksOf_entry hentry]
  exact ⟨bus', hreplay, hdone.done, hdone.marks⟩

/-! ## All runs -/

/-- Elements connected to the bus, initially collapsed and without message or error, and any of the
actions performed; the storage holds its entries in any order. -/
def uiMachine (hooks : ι → Hooks) : Machine (UiBus ι) (UiBus.Action ι) where
  init bus := bus.storage_ = ∅ ∧ ∀ id elm, bus.routingTable_ id = some elm → elm = {}
  step bus a bus' := ∃ table : StateMapGroupingStorage ι, table.entries.Perm bus.storage_.entries ∧
    ({ bus with storage_ := table } : UiBus ι).perform hooks a = some bus'

/-- **The condition**: an element which is expanded is not sent a mark to collapse it. -/
def CollapsesByMark (bus : UiBus ι) (a : UiBus.Action ι) : Prop :=
  ∃ id elm, a = .mark id ⟨MARK_expand, .bool false⟩ ∧ bus.routingTable_ id = some elm ∧ elm.expanded = true

/-- **The presentation state is persistent**: what can be retrieved is the state of the elements, at
least where they differ from the initial state; it restores the state in new elements, and does not
affect the original ones. -/
structure Persistent (hooks : ι → Hooks) (bus : UiBus ι) : Prop where
  expand : ∀ id elm, bus.routingTable_ id = some elm →
    (∀ m, bus.storage_.retrieve id MARK_expand = some m → m.data = .bool elm.expanded) ∧
      (elm.expanded = true → bus.storage_.retrieve id MARK_expand ≠ none)
  message : ∀ id elm, bus.routingTable_ id = some elm →
    (∀ m, bus.storage_.retrieve id MARK_Message = some m →
      ∃ text, m.data = .text text ∧ (hooks id).msg text = elm.message) ∧
      (elm.message ≠ none → bus.storage_.retrieve id MARK_Message ≠ none)
  error : ∀ id elm, bus.routingTable_ id = some elm →
    (∀ m, bus.storage_.retrieve id MARK_Error = some m →
      ∃ text, m.data = .text text ∧ (hooks id).err text = elm.error) ∧
      (elm.error ≠ none → bus.storage_.retrieve id MARK_Error ≠ none)
  restores : ∀ table : StateMapGroupingStorage ι, table.entries.Perm bus.storage_.entries →
    ∃ bus', ({ bus with storage_ := table } : UiBus ι).renewed.replayAllState hooks = some bus' ∧
      bus'.routingTable_ = bus.routingTable_ ∧
        ∀ id key, bus'.storage_.retrieve id key = bus.storage_.retrieve id key
  unaffected : ∀ table : StateMapGroupingStorage ι, table.entries.Perm bus.storage_.entries →
    ∀ a : UiBus.Action ι, a.IsReplay →
      ({ bus with storage_ := table } : UiBus ι).perform hooks a = some { bus with storage_ := table }

section Runs

variable {hooks : ι → Hooks} {bus bus' : UiBus ι}

theorem Agreement.step (h : Agreement hooks bus) (ha : ¬ CollapsesByMark bus a)
    (hstep : (uiMachine hooks).step bus a bus') : Agreement hooks bus' := by
  obtain ⟨table, hperm, hperform⟩ := hstep
  have htable := h.perm hperm
  cases a with
  | slotExpand id => cases hperform; exact htable.expand fun _ _ _ => rfl
  | slotCollapse id => cases hperform; exact htable.expand fun _ _ _ => rfl
  | reset id => cases hperform; exact htable.reset
  | clearMsg id => cases hperform; exact htable.clearMsg
  | clearErr id => cases hperform; exact htable.clearErr
  | markMsg id message => cases hperform; exact htable.markMsg
  | markErr id error => cases hperform; exact htable.markErr
  | mark subject m =>
    refine htable.mark (fun hm elm helm => ?_) hperform
    by_contra hexpanded
    exact ha ⟨subject, elm, by rw [hm], helm, by simpa using hexpanded⟩
  | replayState | replayAllState | replayAllStateOf | replayAllProperties =>
    rw [htable.replay (by trivial)] at hperform
    cases hperform
    exact htable

/-- A record which agrees makes the presentation state persistent. -/
theorem Agreement.persistent (h : Agreement hooks bus) : Persistent hooks bus := by
  have hcaptured : ∀ id elm, bus.routingTable_ id = some elm →
      ∀ sym m, bus.storage_.retrieve id sym = some m →
      m.sym = sym ∧ Shows (hooks id) elm m := by
    intro id elm helm sym m hm
    have hat := h id
    rw [helm] at hat
    obtain ⟨hmem, hsym⟩ := retrieve_eq_some.mp hm
    exact ⟨hsym, Agrees.shows hat m hmem⟩
  have hcovers : ∀ id elm, bus.routingTable_ id = some elm → ∀ sym, Differs elm sym →
      bus.storage_.retrieve id sym ≠ none := by
    intro id elm helm sym hsym hnone
    have hat := h id
    rw [helm] at hat
    obtain ⟨m, hm, hmsym⟩ := Agrees.covers hat sym hsym
    exact retrieve_eq_none.mp hnone m hm hmsym
  refine ⟨fun id elm helm => ⟨fun m hm => ?_, fun hexp => ?_⟩,
    fun id elm helm => ⟨fun m hm => ?_, fun hmsg => ?_⟩,
    fun id elm helm => ⟨fun m hm => ?_, fun herr => ?_⟩, fun table hperm => ?_,
    fun table hperm a ha => (h.perm hperm).replay ha⟩
  · obtain ⟨hsym, _ | ⟨text, htext⟩ | ⟨text, htext⟩⟩ := hcaptured id elm helm _ m hm
    · rfl
    · simp [MARK_Message, MARK_expand] at hsym
    · simp [MARK_Error, MARK_expand] at hsym
  · exact hcovers id elm helm _ (differs_expand.mpr hexp)
  · obtain ⟨hsym, _ | ⟨text, htext⟩ | ⟨text, htext⟩⟩ := hcaptured id elm helm _ m hm
    · simp [MARK_Message, MARK_expand] at hsym
    · exact ⟨text, rfl, htext⟩
    · simp [MARK_Error, MARK_Message] at hsym
  · exact hcovers id elm helm _ (differs_message.mpr hmsg)
  · obtain ⟨hsym, _ | ⟨text, htext⟩ | ⟨text, htext⟩⟩ := hcaptured id elm helm _ m hm
    · simp [MARK_Error, MARK_expand] at hsym
    · simp [MARK_Error, MARK_Message] at hsym
    · exact ⟨text, rfl, htext⟩
  · exact hcovers id elm helm _ (differs_error.mpr herr)
  · obtain ⟨restored, hreplay, helms, hmarks⟩ := (h.perm hperm).restore
    refine ⟨restored, hreplay, helms, fun id key => Option.ext fun m => ?_⟩
    rw [retrieve_eq_some, retrieve_eq_some, hmarks, marksOf_perm hperm]

theorem not_persistent_of_collapsesByMark (ha : CollapsesByMark bus a)
    (hstep : (uiMachine hooks).step bus a bus') : ¬ Persistent hooks bus' := by
  obtain ⟨table, hperm, hperform⟩ := hstep
  obtain ⟨id, elm, rfl, helm, hexpanded⟩ := ha
  have helm' : (⟨bus.routingTable_, table⟩ : UiBus ι).routingTable_ id = some elm := helm
  have hresult : bus' = ⟨update bus.routingTable_ id (some { elm with expanded := false }),
      table.record id ⟨MARK_expand, .bool true⟩⟩ := by
    simpa [UiBus.perform, UiBus.mark, helm, UiBus.tangibleMark, UiBus.doMark,
      UiBus.invoke_eq helm', doExpand_eq, hexpanded, MARK_expand, MARK_Flash,
      MARK_Error, MARK_Message, recordState, MARK_reset, MARK_clearErr, MARK_clearMsg, eq_comm] using hperform
  intro h
  have hcaptured : bus'.storage_.retrieve id MARK_expand = some ⟨MARK_expand, .bool true⟩ := by
    rw [hresult, retrieve_eq_some]
    exact ⟨mem_marksOf_record.mpr (.inl rfl), rfl⟩
  have hcontradicts := (h.expand id { elm with expanded := false } (by simp [hresult])).1 _ hcaptured
  simp at hcontradicts

/-- **In every run in which no expanded element is collapsed by a mark, the presentation state is
persistent**, and a step which does so, and only such a step, ends this. -/
theorem persistent_of_reachable
    (h : ((uiMachine hooks).restrict fun bus a => ¬ CollapsesByMark bus a).Reachable bus) :
    Persistent hooks bus ∧
      ∀ a bus', (uiMachine hooks).step bus a bus' → (Persistent hooks bus' ↔ ¬ CollapsesByMark bus a) := by
  have hinvariant : ((uiMachine hooks).restrict fun bus a => ¬ CollapsesByMark bus a).Invariant
      (Agreement hooks) := by
    refine ⟨?_, fun s a t hs ht => hs.step ht.1 ht.2⟩
    rintro s ⟨hstorage, helms⟩ id
    have hmarks : s.storage_.marksOf id = [] := by simp [hstorage, marksOf, StateData.empty]
    rw [hmarks]
    cases helm : s.routingTable_ id with
    | none => rfl
    | some elm =>
      obtain rfl := helms id elm helm
      exact agrees_initial
  have hagree : Agreement hooks bus := hinvariant.reachable h
  refine ⟨hagree.persistent, fun a bus' hstep => ⟨fun hpersistent ha => ?_, fun ha => ?_⟩⟩
  · exact not_persistent_of_collapsesByMark ha hstep hpersistent
  · exact (hagree.step ha hstep).persistent

end Runs

/-! ## Examples of runs -/

section Examples

/-- Messages and errors are sticky; an empty text is none. -/
private def stickyHooks : String → Hooks := fun _ =>
  { msg := fun text => if text = "" then none else some text
    err := fun text => if text = "" then none else some text }

/-- One element, just connected to the bus. -/
private def oneElement : UiBus String :=
  ⟨fun id => if id = "alpha" then some {} else none, ∅⟩

/-- An element which has been expanded and has an error: both can be retrieved, and are restored. -/
theorem persistent_expanded_with_error :
    Persistent stickyHooks ((oneElement.slotExpand "alpha").markErr stickyHooks "alpha" "overload") := by
  have hexpand : ¬ CollapsesByMark oneElement (.slotExpand "alpha") := by rintro ⟨id, elm, h, -⟩; cases h
  have herror : ¬ CollapsesByMark (oneElement.slotExpand "alpha") (.markErr "alpha" "overload") := by
    rintro ⟨id, elm, h, -⟩; cases h
  have hinit : (uiMachine stickyHooks).init oneElement := by
    refine ⟨rfl, fun id elm h => ?_⟩
    simp only [oneElement] at h
    split at h
    · exact (Option.some.inj h).symm
    · cases h
  refine (persistent_of_reachable ⟨oneElement, [.slotExpand "alpha", .markErr "alpha" "overload"],
    hinit, ?_⟩).1
  exact .cons ⟨hexpand, _, .refl _, rfl⟩ (.cons ⟨herror, _, .refl _, rfl⟩ (.nil _))

/-- An element which has been expanded, and then collapsed by a mark. -/
theorem not_persistent_collapsed_by_mark :
    oneElement.storage_ = ∅ ∧ oneElement.routingTable_ "alpha" = some {} ∧
    ∃ bus, (uiMachine stickyHooks).Run oneElement
        [.slotExpand "alpha", .mark "alpha" ⟨MARK_expand, .bool false⟩] bus ∧
      bus.routingTable_ "alpha" = some {} ∧
      bus.storage_.retrieve "alpha" MARK_expand = some ⟨MARK_expand, .bool true⟩ ∧
      ¬ Persistent stickyHooks bus := by
  have hexpanded : (oneElement.slotExpand "alpha").routingTable_ "alpha" = some { expanded := true } := rfl
  have hcollapses : CollapsesByMark (oneElement.slotExpand "alpha")
      (.mark "alpha" ⟨MARK_expand, .bool false⟩) := ⟨"alpha", _, rfl, hexpanded, rfl⟩
  have hstep : (uiMachine stickyHooks).step (oneElement.slotExpand "alpha")
      (.mark "alpha" ⟨MARK_expand, .bool false⟩) _ := ⟨_, .refl _, rfl⟩
  refine ⟨rfl, rfl, _, .cons ⟨_, .refl _, rfl⟩ (.cons hstep (.nil _)), rfl, ?_, ?_⟩
  · exact retrieve_eq_some.mpr ⟨mem_marksOf_record.mpr (.inl rfl), rfl⟩
  · exact not_persistent_of_collapsesByMark hcollapses hstep

end Examples

end Lumiera.Stage.Model
