import Mathlib.Data.List.AList
import Mathlib.Data.String.Basic

/-! # Recording presentation state (`stage/ctrl/state-recorder.hpp`, `state-map-grouping-storage.hpp`)

State mark messages noted by the elements of the UI are captured by the state recorder, grouped by
element; for each element there is a set of marks with at most one mark for each property symbol.
Some marks are not captured but cause what has been captured to be discarded. -/

namespace Lumiera.Stage.Ctrl

open List

/-! ## State marks -/

/-- Marks which address the persistent state of an element, and others (`ui-protocol.cpp`). -/
def MARK_reset : String := "reset"
def MARK_clearErr : String := "clearErr"
def MARK_clearMsg : String := "clearMsg"
def MARK_expand : String := "expand"
def MARK_Flash : String := "Flash"
def MARK_Error : String := "Error"
def MARK_Message : String := "Message"

/-- The payload of a state mark. -/
inductive Payload
  | bool (flag : Bool)
  | text (str : String)
  /-- Data of any other type. -/
  | other
  deriving DecidableEq, Repr

/-- A state mark: a `GenNode` with a property symbol and a payload. -/
structure StateMark where
  sym : String
  data : Payload
  deriving DecidableEq, Repr

/-! ## The marks of one element -/

/-- Adds a mark to those of an element; a mark with the same symbol is replaced. -/
def emplaceMark (mark : StateMark) : List StateMark → List StateMark
  | [] => [mark]
  | first :: rest =>
    if first.sym = mark.sym then mark :: rest
    else if mark.sym < first.sym then mark :: first :: rest
    else first :: emplaceMark mark rest

theorem mem_emplaceMark {mark m : StateMark} {marks : List StateMark}
    (hsorted : marks.Pairwise fun a b => a.sym < b.sym) :
    m ∈ emplaceMark mark marks ↔ m = mark ∨ (m ∈ marks ∧ m.sym ≠ mark.sym) := by
  induction marks with
  | nil => simp [emplaceMark]
  | cons first rest ih =>
    obtain ⟨hfirst, hrest⟩ := pairwise_cons.mp hsorted
    rw [emplaceMark]
    split
    · next hsame =>
        grind
    · next hdiffers =>
        split
        · next hlt =>
            grind
        · grind

theorem sorted_emplaceMark {mark : StateMark} {marks : List StateMark}
    (hsorted : marks.Pairwise fun a b => a.sym < b.sym) :
    (emplaceMark mark marks).Pairwise fun a b => a.sym < b.sym := by
  induction marks with
  | nil => simp [emplaceMark]
  | cons first rest ih =>
    obtain ⟨hfirst, hrest⟩ := pairwise_cons.mp hsorted
    rw [emplaceMark]
    split
    · next hsame => exact pairwise_cons.mpr ⟨fun x hx => hsame ▸ hfirst x hx, hrest⟩
    · next hdiffers =>
        split
        · next hlt =>
            refine pairwise_cons.mpr ⟨fun x hx => ?_, hsorted⟩
            rcases mem_cons.mp hx with rfl | hx
            · exact hlt
            · exact hlt.trans (hfirst x hx)
        · next hnot =>
            refine pairwise_cons.mpr ⟨fun x hx => ?_, ih hrest⟩
            rcases (mem_emplaceMark hrest).mp hx with rfl | ⟨hx, -⟩
            · exact lt_of_le_of_ne (not_lt.mp hnot) hdiffers
            · exact hfirst x hx

/-- The marks captured for one element, in the order of their symbols (`StateData`, a set). -/
structure StateData where
  marks : List StateMark
  /-- There is at most one mark for each symbol. -/
  sorted : marks.Pairwise fun a b => a.sym < b.sym

namespace StateData

/-- No marks. -/
def empty : StateData := ⟨[], .nil⟩

/-- `emplace`, and the update of an existing entry. The marks noted for one symbol always have a
payload of the same type, so the assignment is never refused. -/
def emplace (data : StateData) (mark : StateMark) : StateData :=
  ⟨emplaceMark mark data.marks, sorted_emplaceMark data.sorted⟩

/-- `findProperty`: the mark with the given symbol. -/
def findProperty (data : StateData) (propertyKey : String) : Option StateMark :=
  data.marks.find? fun mark => propertyKey == mark.sym

/-- Discards the mark found for a symbol. -/
def eraseProperty (data : StateData) (propertyKey : String) : StateData :=
  ⟨data.marks.eraseP fun mark => propertyKey == mark.sym, data.sorted.sublist (eraseP_sublist ..)⟩

variable {data : StateData} {mark m : StateMark} {key : String}

theorem mem_emplace : m ∈ (data.emplace mark).marks ↔ m = mark ∨ (m ∈ data.marks ∧ m.sym ≠ mark.sym) :=
  mem_emplaceMark data.sorted

theorem findProperty_eq_some : data.findProperty key = some m ↔ m ∈ data.marks ∧ m.sym = key := by
  obtain ⟨marks, hsorted⟩ := data
  unfold findProperty
  induction marks with
  | nil => simp
  | cons first rest ih =>
    obtain ⟨hfirst, hrest⟩ := pairwise_cons.mp hsorted
    grind

theorem mem_eraseProperty : m ∈ (data.eraseProperty key).marks ↔ m ∈ data.marks ∧ m.sym ≠ key := by
  obtain ⟨marks, hsorted⟩ := data
  unfold eraseProperty
  induction marks with
  | nil => simp
  | cons first rest ih =>
    obtain ⟨hfirst, hrest⟩ := pairwise_cons.mp hsorted
    grind

end StateData

/-! ## The storage -/

universe u

variable {ι : Type u} [DecidableEq ι]

/-- The captured marks of each element (`StateMapGroupingStorage`, a hash map, whose order is not
specified). -/
abbrev StateMapGroupingStorage (ι : Type u) : Type u := AList fun _ : ι => StateData

namespace StateMapGroupingStorage

/-- `retrieve`: the mark captured for an element and property, if any. -/
def retrieve (storage : StateMapGroupingStorage ι) (elementID : ι) (propertyKey : String) :
    Option StateMark :=
  (storage.lookup elementID).bind fun data => data.findProperty propertyKey

/-- `record`. -/
def record (storage : StateMapGroupingStorage ι) (elementID : ι) (stateMark : StateMark) :
    StateMapGroupingStorage ι :=
  storage.insert elementID (((storage.lookup elementID).getD .empty).emplace stateMark)

/-- `clearProperty`. -/
def clearProperty (storage : StateMapGroupingStorage ι) (elementID : ι) (propertyKey : String) :
    StateMapGroupingStorage ι :=
  match storage.lookup elementID with
  | none => storage
  | some data => storage.insert elementID (data.eraseProperty propertyKey)

/-- `clearState`. -/
def clearState (storage : StateMapGroupingStorage ι) (elementID : ι) : StateMapGroupingStorage ι :=
  storage.erase elementID

/-- The marks captured for an element. -/
def marksOf (storage : StateMapGroupingStorage ι) (elementID : ι) : List StateMark :=
  ((storage.lookup elementID).getD .empty).marks

/-- `StateRecorder::recordState`: captures a mark, or discards what has been captured. -/
def recordState (storage : StateMapGroupingStorage ι) (uiElm : ι) (stateMark : StateMark) :
    StateMapGroupingStorage ι :=
  if MARK_reset = stateMark.sym then storage.clearState uiElm
  else if MARK_clearErr = stateMark.sym then storage.clearProperty uiElm MARK_Error
  else if MARK_clearMsg = stateMark.sym then storage.clearProperty uiElm MARK_Message
  else storage.record uiElm stateMark

variable {storage storage' : StateMapGroupingStorage ι} {id id' : ι} {mark m : StateMark} {key : String}

theorem retrieve_eq_some : storage.retrieve id key = some m ↔ m ∈ storage.marksOf id ∧ m.sym = key := by
  unfold retrieve marksOf
  cases storage.lookup id with
  | none => simp [StateData.empty]
  | some data => exact StateData.findProperty_eq_some

theorem eq_of_mem_marksOf {n : StateMark} (hm : m ∈ storage.marksOf id) (hn : n ∈ storage.marksOf id)
    (hsym : m.sym = n.sym) : m = n := by
  have hfirst : storage.retrieve id n.sym = some m := retrieve_eq_some.mpr ⟨hm, hsym⟩
  have hsecond : storage.retrieve id n.sym = some n := retrieve_eq_some.mpr ⟨hn, rfl⟩
  exact Option.some.inj (hfirst.symm.trans hsecond)

theorem retrieve_eq_none : storage.retrieve id key = none ↔ ∀ m ∈ storage.marksOf id, m.sym ≠ key := by
  rw [Option.eq_none_iff_forall_ne_some]
  simp only [ne_eq, retrieve_eq_some, not_and]

theorem marksOf_perm (h : storage.entries.Perm storage'.entries) (id : ι) :
    storage.marksOf id = storage'.marksOf id := by
  unfold marksOf
  rw [AList.perm_lookup h]

theorem marksOf_entry {entry : Sigma fun _ : ι => StateData} (h : entry ∈ storage.entries) :
    storage.marksOf entry.1 = entry.2.marks := by
  have hlookup : storage.lookup entry.1 = some entry.2 := AList.mem_lookup_iff.mpr h
  simp [marksOf, hlookup]

theorem exists_entry (h : m ∈ storage.marksOf id) : ∃ entry ∈ storage.entries, entry.1 = id ∧ m ∈ entry.2.marks := by
  unfold marksOf at h
  cases hlookup : storage.lookup id with
  | none => simp [hlookup, StateData.empty] at h
  | some data =>
    rw [hlookup] at h
    exact ⟨⟨id, data⟩, AList.mem_lookup_iff.mp hlookup, rfl, h⟩

theorem mem_marksOf_record :
    m ∈ (storage.record id mark).marksOf id ↔ m = mark ∨ (m ∈ storage.marksOf id ∧ m.sym ≠ mark.sym) := by
  simp only [record, marksOf, AList.lookup_insert]
  exact StateData.mem_emplace

theorem mem_marksOf_clearProperty :
    m ∈ (storage.clearProperty id key).marksOf id ↔ m ∈ storage.marksOf id ∧ m.sym ≠ key := by
  unfold clearProperty marksOf
  cases hlookup : storage.lookup id with
  | none => simp [hlookup, StateData.empty]
  | some data =>
    simp only [AList.lookup_insert]
    exact StateData.mem_eraseProperty

theorem marksOf_clearState : (storage.clearState id).marksOf id = [] := by
  simp [clearState, marksOf, StateData.empty]

theorem marksOf_recordState_of_ne (h : id' ≠ id) :
    (storage.recordState id mark).marksOf id' = storage.marksOf id' := by
  have hinsert : ∀ data, AList.lookup id' (AList.insert id data storage) = AList.lookup id' storage :=
    fun data => AList.lookup_insert_ne h
  have hclear : ∀ key, (storage.clearProperty id key).marksOf id' = storage.marksOf id' := by
    intro key
    unfold clearProperty marksOf
    split
    · rfl
    · rw [hinsert]
  unfold recordState
  split
  · rw [clearState, marksOf, AList.lookup_erase_ne h, marksOf]
  · split
    · exact hclear _
    · split
      · exact hclear _
      · rw [record, marksOf, hinsert, marksOf]

end StateMapGroupingStorage

end Lumiera.Stage.Ctrl
