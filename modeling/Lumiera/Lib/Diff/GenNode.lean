import Mathlib.Data.List.Basic

/-! # Generic tree nodes (`lib/diff/gen-node.hpp`, `lib/diff/record.hpp`)

A `GenNode` is an identity plus a payload; the payload is a plain value, a reference to a record
or a nested record, and a record has a type, a list of attributes and a list of children, which
are nodes again. The same nodes form the data a tree diff is applied to and the arguments of its
verbs. Two identities are equal when their hashes are; how a hash is computed from the symbolic
name is left open, only the hashes of the two marker nodes matter here. -/

namespace Lumiera.Lib.Diff

/-! ## Identities and payloads -/

/-- The identity of a node (`GenNode::ID`, a `BareEntryID`). -/
structure ID where
  /-- The symbolic name (`getSym()`). -/
  sym : String
  /-- The hash over the symbolic name and the payload type (`getHash()`). -/
  hash : Nat
  deriving DecidableEq, Repr

/-- `operator== (BareEntryID, BareEntryID)` compares the hashes only. -/
def ID.sameID (i j : ID) : Bool := i.hash == j.hash

/-- The plain types of `DataValues`; texts, references and records have constructors of their
own in `DataCap`. -/
inductive DataType
  | int | int64 | short | char | bool | double
  | time | offset | duration | timeSpan
  | luid
  deriving DecidableEq, Repr

/-- Time values are immutable, so a variant holding one refuses assignment. -/
def DataType.isAssignable : DataType → Bool
  | .time | .offset | .duration | .timeSpan => false
  | _ => true

mutual

/-- A generic data element: identity and payload. -/
inductive GenNode
  | mk (idi : ID) (data : DataCap)

/-- The payload of a node (`DataCap`, a `Variant<DataValues>`). -/
inductive DataCap
  /-- A value of one of the plain types; it is only ever copied or replaced here. -/
  | plain (type : DataType) (val : Int)
  /-- `string`. -/
  | text (s : String)
  /-- `RecRef`: a reference to a record held elsewhere, or an empty one. -/
  | recRef (target : Option Record)
  /-- `Rec`: a nested record. -/
  | record (r : Record)

/-- A `Record<GenNode>`, the representation of an object. -/
inductive Record
  | mk (type : String) (attribs : List GenNode) (children : List GenNode)

end

namespace Record

/-- The object type ID (`type_`). -/
def type : Record → String | mk t _ _ => t
/-- The attributes (`attribs_`). -/
def attribs : Record → List GenNode | mk _ a _ => a
/-- The children (`children_`). -/
def children : Record → List GenNode | mk _ _ c => c

end Record

namespace DataCap

/-- `maybeAccessNestedRec`: the nested record, also when held by reference. -/
def maybeAccessNestedRec : DataCap → Option Record
  | record r => some r
  | recRef r => r
  | _ => none

/-- Replaces the record reached by `get<Rec>()`, which is where a change made in place shows. -/
def setNestedRec (r : Record) : DataCap → DataCap
  | record _ => record r
  | recRef (some _) => recRef (some r)
  | d => d

/-- Assignment of a payload (`operator=`, a virtual copy of the variant): the type can not be
changed, and not every type is assignable; `none` stands for the exception. -/
def assign : DataCap → DataCap → Option DataCap
  | plain t _, plain t' v => if t = t' ∧ t.isAssignable then some (plain t v) else none
  | text _, text s => some (text s)
  | record _, record r => some (record r)
  | _, _ => none

end DataCap

/-! ## Nodes -/

namespace GenNode

/-- The identity of the node (`idi`). -/
def idi : GenNode → ID | mk i _ => i
/-- The payload of the node (`data`). -/
def data : GenNode → DataCap | mk _ d => d

/-- `isNamed`: attributes have a name of their own, children a generated one. -/
def isNamed (n : GenNode) : Bool := !"_CHILD_".toList.isPrefixOf n.idi.sym.toList

/-- `isTypeID`: the magic attribute which denotes the object type. -/
def isTypeID (n : GenNode) : Bool := "type" == n.idi.sym

/-- `matches (GenNode const&)`: compares the identity, not the payload. -/
def matchNode (n o : GenNode) : Bool := n.idi.sameID o.idi

end GenNode

/-! ## Marker nodes (`Ref`) -/

/-- The hashes of the identities of the marker nodes, as `buildHash` yields them for their symbolic
names and the type hash of a record. -/
structure RefHash where
  /-- Hash of `_END_`. -/
  END : Nat
  /-- Hash of `_ATTRIBS_`. -/
  ATTRIBS : Nat

namespace RefHash

/-- `Ref::END`. -/
def refEND (H : RefHash) : GenNode := .mk ⟨"_END_", H.END⟩ (.recRef none)

/-- `Ref::ATTRIBS`. -/
def refATTRIBS (H : RefHash) : GenNode := .mk ⟨"_ATTRIBS_", H.ATTRIBS⟩ (.recRef none)

end RefHash

namespace GenNode

/-- `marker == spec` for one of the marker nodes: same identity, and the payload of `spec` is an
empty reference too (`matchRec`). -/
def equalsMarker (marker spec : GenNode) : Bool :=
  marker.matchNode spec &&
    match spec.data with
    | .recRef none => true
    | _ => false

/-- `spec == marker`, comparing from the other side: `matchData` then retrieves the payload of the
marker as a value of the type of `spec`, which raises a type error unless it is a reference. -/
def specEqualsMarker (spec marker : GenNode) : Option Bool :=
  if spec.matchNode marker then
    match spec.data with
    | .recRef r => some r.isNone
    | _ => none
  else
    some false

end GenNode

end Lumiera.Lib.Diff
