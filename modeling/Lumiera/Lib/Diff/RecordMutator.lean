import Lumiera.Lib.Diff.GenNodeAssignment

/-! # Rebuilding records (`Record::Mutator` in `lib/diff/record.hpp`)

A mutator wraps a record and changes it step by step. The attributes and the children are nodes held in
arrays, and a node can not always be assigned to another one: the payload is a variant, which keeps its
type, and values of some types can only be cloned. So what an operation does depends on whether nodes
are constructed, assigned or shifted. -/

namespace Lumiera.Lib.Diff

open List

/-! ## Nodes as elements of an array -/

/-- What is left of a node moved away; nothing is known but the type of its payload. -/
structure Husk where
  of : GenNode → GenNode
  payloadType_of : ∀ n, (of n).data.payloadType = n.data.payloadType

/-- Nodes, as elements of an array. -/
def Husk.assigning (husk : Husk) : Assigning GenNode where
  assign := GenNode.assign
  husk := husk.of
  assign_eq := GenNode.eq_of_assign
  assign_husk target _ := by
    rw [GenNode.assign, DataCap.assign_congr (husk.payloadType_of target), GenNode.assign]

/-! ## The mutator -/

/-- `extractKey`: children have no key. -/
def extractKey (n : GenNode) : String := if n.isNamed then n.idi.sym else ""

/-- **The mutator** (`Record::Mutator`), with the data of the record within. -/
structure Record.Mutator where
  type_ : String
  attribs_ : GrowingArray GenNode
  children_ : GrowingArray GenNode

/-- The operations of a mutator. The variant of `set` with a key and a content calls the one given here,
with an attribute built from these. -/
inductive Record.Mutator.Op
  | setType (newTypeID : String)
  | set (attrib : GenNode)
  | appendAttrib (newAttrib : GenNode)
  | appendChild (newChild : GenNode)
  | prependChild (newChild : GenNode)

namespace Record.Mutator

variable (growth : Growth) (husk : Husk)

/-- The record within. -/
def record (m : Mutator) : Record := .mk m.type_ m.attribs_.elems m.children_.elems

def setType (m : Mutator) (newTypeID : String) : Mutator := { m with type_ := newTypeID }

/-- The position of the first attribute with a given key, or the end. -/
def find (m : Mutator) (key : String) : Nat := m.attribs_.elems.findIdx fun elm => key == extractKey elm

def set (m : Mutator) (attrib : GenNode) : Performed Mutator :=
  -- attempt to set an attribute with empty key
  if extractKey attrib = "" then ⟨m, true⟩
  else if h : m.find (extractKey attrib) < m.attribs_.elems.length then
    let assigned := m.attribs_.assignAt husk.assigning (m.find (extractKey attrib)) h attrib
    ⟨{ m with attribs_ := assigned.state }, assigned.raised⟩
  else ⟨{ m with attribs_ := m.attribs_.pushBack growth attrib }, false⟩

/-- The new node is expected to be an attribute, which is asserted only (`REQUIRE`). -/
def appendAttrib (m : Mutator) (newAttrib : GenNode) : Mutator :=
  { m with attribs_ := m.attribs_.pushBack growth newAttrib }

def appendChild (m : Mutator) (newChild : GenNode) : Mutator :=
  { m with children_ := m.children_.pushBack growth newChild }

def prependChild (m : Mutator) (newChild : GenNode) : Performed Mutator :=
  let inserted := m.children_.insertFront growth husk.assigning newChild
  ⟨{ m with children_ := inserted.state }, inserted.raised⟩

/-- One operation. -/
def step (m : Mutator) : Op → Performed Mutator
  | .setType newTypeID => ⟨m.setType newTypeID, false⟩
  | .set attrib => m.set growth husk attrib
  | .appendAttrib newAttrib => ⟨m.appendAttrib growth newAttrib, false⟩
  | .appendChild newChild => ⟨m.appendChild growth newChild, false⟩
  | .prependChild newChild => m.prependChild growth husk newChild

/-- A sequence of operations; exceptions are caught, and the next operation is tried. -/
def run (m : Mutator) : List Op → Mutator
  | [] => m
  | op :: ops => (m.step growth husk op).state.run ops

end Record.Mutator

/-! ## The reference -/

/-- An attribute takes the place of the first one with the same key, or else is added at the end. -/
def setAttribute (attrib : GenNode) : List GenNode → List GenNode
  | [] => [attrib]
  | present :: rest =>
    if extractKey attrib = extractKey present then attrib :: rest
    else present :: setAttribute attrib rest

variable {attrib : GenNode}

namespace Record

/-- What an operation makes of a record. -/
def rebuild (r : Record) : Mutator.Op → Record
  | .setType newTypeID => .mk newTypeID r.attribs r.children
  | .set attrib => .mk r.type (setAttribute attrib r.attribs) r.children
  | .appendAttrib newAttrib => .mk r.type (r.attribs ++ [newAttrib]) r.children
  | .appendChild newChild => .mk r.type r.attribs (r.children ++ [newChild])
  | .prependChild newChild => .mk r.type r.attribs (newChild :: r.children)

/-- The attribute present for a key. -/
def attribute? (r : Record) (key : String) : Option GenNode := r.attribs.find? fun elm => key == extractKey elm

/-- **The operations refused**: only an attribute can be refused, when it has no key, or when the one
present can not be assigned from it, being of another type or of one which does not support assignment. -/
def refuses (r : Record) : Mutator.Op → Bool
  | .set attrib => extractKey attrib = "" ||
      (r.attribute? (extractKey attrib)).any fun present =>
        !(present.data.payloadType = attrib.data.payloadType && attrib.data.payloadType.isAssignable)
  | _ => false

/-- What a sequence of operations makes of a record, where those refused have no effect. -/
def rebuilt (r : Record) : List Mutator.Op → Record
  | [] => r
  | op :: ops => (if r.refuses op then r else r.rebuild op).rebuilt ops

theorem refuses_set_iff {r : Record} : r.refuses (.set attrib) = true ↔
    extractKey attrib = "" ∨ ∃ present, r.attribute? (extractKey attrib) = some present ∧
      ¬ (present.data.payloadType = attrib.data.payloadType ∧ attrib.data.payloadType.isAssignable = true) := by
  unfold refuses
  rw [Bool.or_eq_true, decide_eq_true_iff, Option.any_eq_true]
  refine or_congr_right (exists_congr fun present => and_congr_right fun _ => ?_)
  rw [Bool.not_eq_true', ← Bool.not_eq_true, Bool.and_eq_true, decide_eq_true_iff]

end Record

namespace Record.Mutator

variable {growth : Growth} {husk : Husk} {m : Mutator} {op : Op} {ops : List Op}

/-! ## Setting attributes -/

theorem setAttribute_eq (attrib : GenNode) :
    setAttribute attrib m.attribs_.elems =
      if m.find (extractKey attrib) < m.attribs_.elems.length then
        m.attribs_.elems.set (m.find (extractKey attrib)) attrib
      else m.attribs_.elems ++ [attrib] := by
  unfold find
  induction m.attribs_.elems with
  | nil => rfl
  | cons present rest ih =>
    rw [setAttribute, findIdx_cons]
    by_cases hkey : extractKey attrib = extractKey present
    · rw [if_pos hkey, beq_iff_eq.mpr hkey]
      simp
    · rw [if_neg hkey, ih, beq_eq_false_iff_ne.mpr hkey]
      simp only [cond_false, length_cons, Nat.add_lt_add_iff_right]
      split <;> rfl

theorem attribute?_eq (key : String) : m.record.attribute? key = m.attribs_.elems[m.find key]? :=
  find?_eq_getElem?_findIdx

theorem set_cases (growth : Growth) (husk : Husk) (attrib : GenNode) :
    (extractKey attrib = "" ∧ m.set growth husk attrib = ⟨m, true⟩) ∨
    extractKey attrib ≠ "" ∧
      ((∃ h : m.find (extractKey attrib) < m.attribs_.elems.length,
        m.set growth husk attrib =
          ⟨{ m with attribs_ := (m.attribs_.assignAt husk.assigning _ h attrib).state },
            (m.attribs_.assignAt husk.assigning _ h attrib).raised⟩) ∨
      (¬ m.find (extractKey attrib) < m.attribs_.elems.length ∧
        m.set growth husk attrib = ⟨{ m with attribs_ := m.attribs_.pushBack growth attrib }, false⟩)) := by
  by_cases hkey : extractKey attrib = ""
  · exact .inl ⟨hkey, if_pos hkey⟩
  · refine .inr ⟨hkey, ?_⟩
    rw [set, if_neg hkey]
    by_cases h : m.find (extractKey attrib) < m.attribs_.elems.length
    · exact .inl ⟨h, dif_pos h⟩
    · exact .inr ⟨h, dif_neg h⟩

theorem set_raised_iff : (m.set growth husk attrib).raised = true ↔ m.record.refuses (.set attrib) = true := by
  rw [Record.refuses_set_iff, attribute?_eq]
  obtain ⟨hkey, heq⟩ | ⟨hkey, ⟨h, heq⟩ | ⟨h, heq⟩⟩ := set_cases growth husk attrib
  · rw [heq]
    exact ⟨fun _ => .inl hkey, fun _ => rfl⟩
  · rw [heq, getElem?_eq_getElem h]
    refine GrowingArray.assignAt_raised_iff h |>.trans ?_
    rw [← Bool.not_eq_true]
    refine (not_congr GenNode.isSome_assign).trans ⟨fun hnot => .inr ⟨_, rfl, hnot⟩, ?_⟩
    rintro (hempty | ⟨present, hpresent, hnot⟩)
    · exact absurd hempty hkey
    · rw [Option.some.inj hpresent]
      exact hnot
  · rw [heq, getElem?_eq_none (not_lt.mp h)]
    refine ⟨fun hdone => Bool.noConfusion hdone, ?_⟩
    rintro (hempty | ⟨present, hpresent, -⟩)
    · exact absurd hempty hkey
    · cases hpresent

theorem set_of_raised (hraised : (m.set growth husk attrib).raised = true) :
    (m.set growth husk attrib).state = m := by
  obtain ⟨hkey, heq⟩ | ⟨hkey, ⟨h, heq⟩ | ⟨h, heq⟩⟩ := set_cases growth husk attrib
  · rw [heq]
  · rw [heq] at hraised ⊢
    rw [GrowingArray.assignAt_of_raised h hraised]
  · rw [heq] at hraised
    cases hraised

theorem record_set (hdone : (m.set growth husk attrib).raised = false) :
    (m.set growth husk attrib).state.record = m.record.rebuild (.set attrib) := by
  rw [Record.rebuild, show m.record.attribs = m.attribs_.elems from rfl, setAttribute_eq]
  obtain ⟨hkey, heq⟩ | ⟨hkey, ⟨h, heq⟩ | ⟨h, heq⟩⟩ := set_cases growth husk attrib
  · rw [heq] at hdone
    cases hdone
  · rw [heq] at hdone ⊢
    rw [if_pos h]
    exact congrArg (Record.mk _ · _) (GrowingArray.elems_assignAt h hdone)
  · rw [heq, if_neg h]
    exact congrArg (Record.mk _ · _) GrowingArray.elems_pushBack

/-! ## Prepending children -/

/-- **A child can be put in front** when the children are relocated thereby, or there are none, or when
all of them have payloads of one type, which supports assignment. -/
def Shiftable (m : Mutator) : Op → Prop
  | .prependChild newChild => m.children_.hasSpare = false ∨ m.children_.elems = [] ∨
      ∃ type : PayloadType, type.isAssignable = true ∧
        ∀ n ∈ newChild :: m.children_.elems, n.data.payloadType = type
  | _ => True

theorem isChain_accepts_iff {n first : GenNode} {rest : List GenNode} :
    ((n :: first :: rest).IsChain fun s t => husk.assigning.accepts t s) ↔
      ∃ type : PayloadType, type.isAssignable = true ∧ ∀ x ∈ n :: first :: rest, x.data.payloadType = type := by
  have haccepts : ∀ t s : GenNode, husk.assigning.accepts t s = true ↔
      t.data.payloadType = s.data.payloadType ∧ s.data.payloadType.isAssignable = true :=
    fun _ _ => GenNode.isSome_assign
  induction rest generalizing n first with
  | nil =>
    rw [isChain_pair, haccepts]
    constructor
    · rintro ⟨htype, hassignable⟩
      exact ⟨_, hassignable, by simp [htype]⟩
    · rintro ⟨type, hassignable, hall⟩
      rw [hall n (by simp), hall first (by simp)]
      exact ⟨rfl, hassignable⟩
  | cons next rest ih =>
    rw [isChain_cons_cons, haccepts]
    refine (and_congr_right fun _ => ih).trans ?_
    constructor
    · rintro ⟨⟨htype, -⟩, type, hassignable, hall⟩
      refine ⟨type, hassignable, forall_mem_cons.mpr ⟨?_, hall⟩⟩
      rw [← htype, hall first (by simp)]
    · rintro ⟨type, hassignable, hall⟩
      obtain ⟨hn, hrest⟩ := forall_mem_cons.mp hall
      rw [hn, hrest first (by simp)]
      exact ⟨⟨rfl, hassignable⟩, type, hassignable, hrest⟩

theorem prependChild_raised_iff {newChild : GenNode} :
    (m.prependChild growth husk newChild).raised = true ↔ ¬ m.Shiftable (.prependChild newChild) := by
  show (m.children_.insertFront growth husk.assigning newChild).raised = true ↔ _
  rw [GrowingArray.insertFront_raised_iff, Shiftable, not_or, not_or, Bool.not_eq_false]
  cases m.children_.elems with
  | nil => simp
  | cons first rest =>
    rw [isChain_accepts_iff]
    exact ⟨fun h => ⟨h.1, nofun, h.2⟩, fun h => ⟨h.1, h.2.2⟩⟩

/-! ## Operations -/

theorem step_raised_iff (h : m.Shiftable op) :
    (m.step growth husk op).raised = true ↔ m.record.refuses op = true := by
  cases op with
  | set attrib => exact set_raised_iff
  | prependChild newChild =>
    have hdone : (m.prependChild growth husk newChild).raised ≠ true :=
      fun hraised => prependChild_raised_iff.mp hraised h
    exact ⟨fun hraised => absurd hraised hdone, nofun⟩
  | setType | appendAttrib | appendChild => exact ⟨nofun, nofun⟩

theorem step_of_raised (h : m.Shiftable op) (hraised : (m.step growth husk op).raised = true) :
    (m.step growth husk op).state = m := by
  cases op with
  | set attrib => exact set_of_raised hraised
  | prependChild newChild => exact absurd h (prependChild_raised_iff.mp hraised)
  | setType | appendAttrib | appendChild => cases hraised

theorem record_step (h : (m.step growth husk op).raised = false) :
    (m.step growth husk op).state.record = m.record.rebuild op := by
  cases op with
  | setType => rfl
  | set attrib => exact record_set h
  | appendAttrib newAttrib => exact congrArg (Record.mk _ · _) GrowingArray.elems_pushBack
  | appendChild newChild => exact congrArg (Record.mk _ _) GrowingArray.elems_pushBack
  | prependChild newChild => exact congrArg (Record.mk _ _) (GrowingArray.elems_insertFront h)

theorem record_step_rebuilt (h : m.Shiftable op) :
    (m.step growth husk op).state.record =
      if m.record.refuses op then m.record else m.record.rebuild op := by
  by_cases hraised : (m.step growth husk op).raised = true
  · rw [if_pos ((step_raised_iff h).mp hraised), step_of_raised h hraised]
  · rw [if_neg (mt (step_raised_iff h).mpr hraised), record_step (Bool.not_eq_true _ ▸ hraised)]

/-! ## Sequences of operations -/

/-- Any child to be put in front can be, in the state reached by then. -/
def AllShiftable (growth : Growth) (husk : Husk) : Mutator → List Op → Prop
  | _, [] => True
  | m, op :: ops => m.Shiftable op ∧ AllShiftable growth husk (m.step growth husk op).state ops

theorem AllShiftable.append {before ops : List Op} (h : AllShiftable growth husk m (before ++ ops)) :
    AllShiftable growth husk m before ∧ AllShiftable growth husk (m.run growth husk before) ops := by
  induction before generalizing m with
  | nil => exact ⟨trivial, h⟩
  | cons op before ih =>
    obtain ⟨hop, hrest⟩ := h
    exact ⟨⟨hop, (ih hrest).1⟩, (ih hrest).2⟩

theorem record_run (h : AllShiftable growth husk m ops) : (m.run growth husk ops).record = m.record.rebuilt ops := by
  induction ops generalizing m with
  | nil => rfl
  | cons op ops ih =>
    obtain ⟨hop, hrest⟩ := h
    rw [run, ih hrest, record_step_rebuilt hop, Record.rebuilt]

/-- **Records rebuilt**: a sequence of operations makes of a record what the reference says, where only
attributes are refused, and when one is refused the mutator is left as it was; this is true for any
mixture of nodes, as long as each child to be put in front can be. -/
theorem run_rebuilt (m : Mutator) (ops : List Op) (h : AllShiftable growth husk m ops) :
    (m.run growth husk ops).record = m.record.rebuilt ops ∧
    ∀ before op after, ops = before ++ op :: after →
      (((m.run growth husk before).step growth husk op).raised = true ↔
        (m.record.rebuilt before).refuses op = true) ∧
      (((m.run growth husk before).step growth husk op).raised = true →
        ((m.run growth husk before).step growth husk op).state = m.run growth husk before) := by
  refine ⟨record_run h, ?_⟩
  rintro before op after rfl
  obtain ⟨hbefore, hop, -⟩ := h.append
  rw [← record_run hbefore]
  exact ⟨step_raised_iff hop, step_of_raised hop⟩

end Record.Mutator

/-! ## A record with mixed contents -/

/-- A time value as attribute or child. -/
def timeNode (sym : String) (val : Int) : GenNode := .mk ⟨sym, 1⟩ (.plain .time val)

/-- A number as attribute or child. -/
def intNode (sym : String) (val : Int) : GenNode := .mk ⟨sym, 2⟩ (.plain .int val)

/-- Storage is doubled, and a node moved away stays as it is. -/
def doubling : Growth := ⟨fun n => 2 * n + 1, fun n => by omega⟩

def copied : Husk := ⟨id, fun _ => rfl⟩

/-- One attribute, and two children of different type, without spare storage. -/
def mixedRecord : Record.Mutator where
  type_ := "NIL"
  attribs_ := ⟨[timeNode "start" 5], 1, le_rfl⟩
  children_ := ⟨[timeNode "_CHILD_Time.001" 3, intNode "_CHILD_int.001" 4], 2, le_rfl⟩

/-- A child in front and two attributes, where the second one is refused. -/
def mixedOps : List Record.Mutator.Op :=
  [.prependChild (intNode "_CHILD_int.002" 7), .set (intNode "num" 8), .set (timeNode "start" 6)]

theorem run_rebuilt_mixed :
    (mixedRecord.run doubling copied mixedOps).record = mixedRecord.record.rebuilt mixedOps ∧
    ∀ before op after, mixedOps = before ++ op :: after →
      (((mixedRecord.run doubling copied before).step doubling copied op).raised = true ↔
        (mixedRecord.record.rebuilt before).refuses op = true) ∧
      (((mixedRecord.run doubling copied before).step doubling copied op).raised = true →
        ((mixedRecord.run doubling copied before).step doubling copied op).state =
          mixedRecord.run doubling copied before) :=
  Record.Mutator.run_rebuilt mixedRecord mixedOps ⟨.inl (by decide), trivial, trivial, trivial⟩

/-- A value may be refused which has the same type as the one present: a time value, since these are
immutable and can only be cloned. -/
theorem not_refused_by_type_only : ¬ ∀ (m : Record.Mutator) (attrib : GenNode),
    (m.set doubling copied attrib).raised = true → extractKey attrib = "" ∨ ∃ present ∈ m.record.attribs,
    extractKey present = extractKey attrib ∧ present.data.payloadType ≠ attrib.data.payloadType := by
  intro h
  have hraised : (mixedRecord.set doubling copied (timeNode "start" 6)).raised = true := by decide +kernel
  rcases h mixedRecord (timeNode "start" 6) hraised with hempty | ⟨present, hpresent, -, htype⟩
  · revert hempty
    decide +kernel
  · rw [mem_singleton.mp hpresent] at htype
    exact htype rfl

end Lumiera.Lib.Diff
