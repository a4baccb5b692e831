import Lumiera.Lib.Diff.TreeDiffScope

/-! # What a tree diff means (`lib/diff/tree-diff.hpp`)

The documentation of the verbs speaks about a record, not about layers of a mutator: its elements
are conceived as an ordered sequence, the attributes first, followed by the children, which is
traversed once and built up anew. Here this is spelled out as an interpreter of its own, to compare
the application of a diff with. A verb which does not fit what it finds has no meaning, so a diff
with a meaning is a well-formed one. -/

namespace Lumiera.Lib.Diff

/-! ## Diffs with their bracketing -/

/-- The verbs which stay within a scope. -/
inductive ScopeVerb
  | ins | del | pick | find | skip | after | set
  deriving DecidableEq, Repr

/-- The step of a diff given by a verb and the node it talks about. -/
def ScopeVerb.step (n : GenNode) : ScopeVerb → TreeDiffStep
  | ins => .ins n
  | del => .del n
  | pick => .pick n
  | find => .find n
  | skip => .skip n
  | after => .after n
  | set => .set n

/-- A diff with `mut` and `emu` as bracketing construct. -/
inductive TreeDiff
  | done
  | verb (v : ScopeVerb) (n : GenNode) (rest : TreeDiff)
  /-- `mut (n)`, the diff of the nested scope, `emu (m)`. -/
  | scope (n : GenNode) (inner : TreeDiff) (m : GenNode) (rest : TreeDiff)

namespace TreeDiff

/-- The message: the verbs in sequence. -/
def steps : TreeDiff → List TreeDiffStep
  | done => []
  | verb v n rest => v.step n :: rest.steps
  | scope n inner m rest => .mut n :: (inner.steps ++ .emu m :: rest.steps)

end TreeDiff

/-! ## A record while it is rearranged -/

/-- A place in the old order: the element is still there, or a `find` has fetched it. -/
inductive Slot
  | still (n : GenNode)
  | fetched (n : GenNode)

/-- The element a place is or was taken by. -/
def Slot.node : Slot → GenNode
  | still n => n
  | fetched n => n

/-- The attributes or the children of a record while they are rearranged: the new sequence as far
as it is built up, and the remainder of the old one. -/
structure Sequence where
  accepted : List GenNode
  ahead : List Slot

namespace Sequence

/-- A sequence before any change. -/
def ofList (xs : List GenNode) : Sequence := ⟨[], xs.map .still⟩

/-- `ins`: a new element, at the current position. -/
def insert (n : GenNode) (s : Sequence) : Sequence := { s with accepted := s.accepted ++ [n] }

/-- `del`: the next element is discarded. -/
def delete (n : GenNode) (s : Sequence) : Option Sequence :=
  match s.ahead with
  | .still e :: rest => if n.matchNode e then some { s with ahead := rest } else none
  | _ => none

/-- `pick`: the next element is accepted. -/
def pick (n : GenNode) (s : Sequence) : Option Sequence :=
  match s.ahead with
  | .still e :: rest => if n.matchNode e then some ⟨s.accepted ++ [e], rest⟩ else none
  | _ => none

/-- The next occurrence of an element in the remainder, which is left marked as fetched. -/
def fetch (n : GenNode) : List Slot → Option (GenNode × List Slot)
  | [] => none
  | .still e :: rest =>
    if n.matchNode e then some (e, .fetched e :: rest)
    else (fetch n rest).map fun found => (found.1, .still e :: found.2)
  | .fetched e :: rest => (fetch n rest).map fun found => (found.1, .fetched e :: found.2)

/-- `find`: the next occurrence of the element is accepted here. -/
def find (n : GenNode) (s : Sequence) : Option Sequence :=
  (fetch n s.ahead).map fun found => ⟨s.accepted ++ [found.1], found.2⟩

/-- `skip`: the next place is the one an element was fetched from. -/
def skip (n : GenNode) (s : Sequence) : Option Sequence :=
  match s.ahead with
  | .fetched e :: rest => if n.matchNode e then some { s with ahead := rest } else none
  | _ => none

/-- Accepts elements up to and including the first one meeting `stop`, or all of them if `stop` is
not given. The place of an element fetched earlier has to be skipped and is not passed. -/
def acceptUpTo (stop : Option (GenNode → Bool)) (accepted : List GenNode) :
    List Slot → Option Sequence
  | [] => if stop.isNone then some ⟨accepted, []⟩ else none
  | .still e :: rest =>
    if stop.any (· e) then some ⟨accepted ++ [e], rest⟩
    else acceptUpTo stop (accepted ++ [e]) rest
  | .fetched _ :: _ => none

/-- `after`: existing elements are accepted up to the designated one. -/
def after (n : GenNode) (s : Sequence) : Option Sequence :=
  acceptUpTo (some n.matchNode) s.accepted s.ahead

/-- `after` with a mark: all existing elements are accepted. -/
def afterAll (s : Sequence) : Option Sequence := acceptUpTo none s.accepted s.ahead

/-- The position of an element mentioned already: the one mentioned last, if it has the ID, else the
first one with this ID. -/
def designated (n : GenNode) (s : Sequence) : Option Nat :=
  if s.accepted.getLast?.any n.matchNode then some (s.accepted.length - 1)
  else s.accepted.findIdx? n.matchNode

/-- The designated element is changed in place. -/
def change (n : GenNode) (f : GenNode → Option GenNode) (s : Sequence) : Option Sequence := do
  let i ← s.designated n
  let e ← s.accepted[i]?
  let e' ← f e
  return { s with accepted := s.accepted.set i e' }

end Sequence

/-- A record while a diff is applied to it. -/
structure RecordDraft where
  type : String
  attribs : Sequence
  children : Sequence

/-- Named elements count as attributes. -/
def GenNode.scope (n : GenNode) : RecordScope := if n.isNamed then .attribs else .children

/-- The identity of the mark `ATTRIBS` is reserved and not available for a child. -/
def GenNode.isReserved (H : RefHash) (n : GenNode) : Bool :=
  !n.isNamed && n.idi.hash == H.ATTRIBS

namespace RecordDraft

/-- A record before any change. -/
def ofRecord (r : Record) : RecordDraft := ⟨r.type, .ofList r.attribs, .ofList r.children⟩

/-- The record, when the whole old content was mentioned. -/
def completed (d : RecordDraft) : Option Record :=
  if d.attribs.ahead.isEmpty && d.children.ahead.isEmpty then
    some (.mk d.type d.attribs.accepted d.children.accepted)
  else none

/-- The attributes or the children. -/
def get (d : RecordDraft) : RecordScope → Sequence
  | .attribs => d.attribs
  | .children => d.children

/-- The record with other attributes or children. -/
def put (d : RecordDraft) (s : Sequence) : RecordScope → RecordDraft
  | .attribs => { d with attribs := s }
  | .children => { d with children := s }

/-- A verb which talks about one element. -/
def onElement (H : RefHash) (n : GenNode) (f : Sequence → Option Sequence) (d : RecordDraft) :
    Option RecordDraft :=
  if n.isReserved H then none else (f (d.get n.scope)).map fun s => d.put s n.scope

/-- The type attribute is the type of the record. -/
def setType (n : GenNode) (d : RecordDraft) : Option RecordDraft :=
  match n.data with
  | .text t => some { d with type := t }
  | _ => none

/-- `after`: the attributes come first, so accepting elements up to a child accepts them all. The
marks are `ATTRIBS`, for the end of the attributes, and `END`. -/
def after (H : RefHash) (n : GenNode) (d : RecordDraft) : Option RecordDraft :=
  if n.matchNode H.refEND then
    if H.refEND.equalsMarker n then do
      let a ← d.attribs.afterAll
      let c ← d.children.afterAll
      return ⟨d.type, a, c⟩
    else none
  else if n.matchNode H.refATTRIBS then
    if H.refATTRIBS.equalsMarker n then do
      let a ← d.attribs.afterAll
      return { d with attribs := a }
    else none
  else if n.isNamed then d.onElement H n (Sequence.after n)
  else do
    let a ← d.attribs.afterAll
    onElement H n (Sequence.after n) { d with attribs := a }

/-- `set`: a new payload, with the identity retained. -/
def assign (n e : GenNode) : Option GenNode := (e.data.assign n.data).map (GenNode.mk e.idi)

end RecordDraft

/-! ## The interpreter -/

/-- What a verb does within its scope. -/
def ScopeVerb.perform (H : RefHash) (v : ScopeVerb) (n : GenNode) (d : RecordDraft) :
    Option RecordDraft :=
  match v with
  | ins => if n.isTypeID then d.setType n else d.onElement H n fun s => some (s.insert n)
  | del => d.onElement H n (Sequence.delete n)
  | pick => d.onElement H n (Sequence.pick n)
  | find => d.onElement H n (Sequence.find n)
  | skip => d.onElement H n (Sequence.skip n)
  | after => d.after H n
  | set =>
    if n.isTypeID then d.setType n
    else d.onElement H n (Sequence.change n (RecordDraft.assign n))

namespace RecordDraft

/-- The record nested in an element, after the diff for the nested scope. -/
def changeNested (nested : RecordDraft → Option RecordDraft) (e : GenNode) : Option GenNode := do
  let r ← e.data.maybeAccessNestedRec
  let d ← nested (.ofRecord r)
  let r' ← d.completed
  return .mk e.idi (e.data.setNestedRec r')

/-- `mut` and `emu`: the element designated is a nested record, to be changed as a whole; the
scope is left for the same ID it was entered with. -/
def mutate (H : RefHash) (n m : GenNode) (nested : RecordDraft → Option RecordDraft)
    (d : RecordDraft) : Option RecordDraft :=
  if n.matchNode m then d.onElement H n (Sequence.change n (changeNested nested)) else none

end RecordDraft

namespace TreeDiff

/-- The verbs of a scope, one after the other. -/
def interpret (H : RefHash) : TreeDiff → RecordDraft → Option RecordDraft
  | done, d => some d
  | verb v n rest, d => (v.perform H n d).bind (rest.interpret H)
  | scope n inner m rest, d => (d.mutate H n m (inner.interpret H)).bind (rest.interpret H)

/-- **The record described by a diff**, when the diff is well-formed for the given record. -/
def reference (H : RefHash) (diff : TreeDiff) (r : Record) : Option Record :=
  (diff.interpret H (.ofRecord r)).bind RecordDraft.completed

end TreeDiff

end Lumiera.Lib.Diff
