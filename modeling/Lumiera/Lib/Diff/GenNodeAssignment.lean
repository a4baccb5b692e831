import Lumiera.Base.GrowingArray
import Lumiera.Lib.Diff.GenNodeEquality

/-! # Assignment of nodes (`lib/variant.hpp`, `lib/meta/virtual-copy-support.hpp`)

A node can not always be assigned to another one: the payload is a variant, which keeps the type it was
created with, and values of some types can only be cloned. When a nested record is overwritten by a copy
of another one, then the nodes within are assigned one by one, as far as there are nodes in place, unless
the storage for them is too small and has to be replaced; so this may also fail half way. -/

namespace Lumiera.Lib.Diff

/-- Whether values of this type can be assigned; all others can only be cloned (`CloneSupport`). -/
def PayloadType.isAssignable : PayloadType → Bool
  | .plain type => type.isAssignable
  | .text => true
  | .recRef => false
  | .record => true

/-- The type of the payload, which is fixed on construction. -/
def DataCap.payloadType : DataCap → PayloadType
  | .plain type _ => .plain type
  | .text _ => .text
  | .recRef _ => .recRef
  | .record _ => .record

/-- `GenNode::operator= (GenNode&&)`: the data is assigned first, since this might raise an exception. A
nested record is moved over as a whole. -/
def GenNode.assign (target source : GenNode) : Option GenNode :=
  (target.data.assign source.data).map (GenNode.mk source.idi)

/-! ## Assignment by copy -/

mutual

/-- `GenNode::operator= (GenNode const&)`. The storage of a vector is `relocated` where it is too small;
vectors within are denoted by their path. -/
def GenNode.copyAssign (relocated : List Nat → Bool) : GenNode → GenNode → Performed GenNode
  | .mk idi data, .mk idi' data' =>
    let assigned := data.copyAssign relocated data'
    ⟨.mk (if assigned.raised then idi else idi') assigned.state, assigned.raised⟩
termination_by target => (sizeOf target, 0)

/-- `copyInto` of the payload -/
def DataCap.copyAssign (relocated : List Nat → Bool) : DataCap → DataCap → Performed DataCap
  | .record r, .record r' =>
    let assigned := r.copyAssign relocated r'
    ⟨.record assigned.state, assigned.raised⟩
  | d, d' =>
    match d.assign d' with
    | some assigned => ⟨assigned, false⟩
    | none => ⟨d, true⟩
termination_by target => (sizeOf target, 0)

/-- The copy assignment of a record, member by member. -/
def Record.copyAssign (relocated : List Nat → Bool) : Record → Record → Performed Record
  | .mk _ attribs children, .mk type attribs' children' =>
    let newAttribs := copyAssignVector (fun path => relocated (0 :: path)) attribs attribs'
    -- an exception leaves the record with its new type already
    if newAttribs.raised then ⟨.mk type newAttribs.state children, true⟩
    else
      let newChildren := copyAssignVector (fun path => relocated (1 :: path)) children children'
      ⟨.mk type newAttribs.state newChildren.state, newChildren.raised⟩
termination_by target => (sizeOf target, 0)

/-- The copy assignment of `std::vector`: in new storage, or by assigning to the elements. -/
def copyAssignVector (relocated : List Nat → Bool) (target source : List GenNode) : Performed (List GenNode) :=
  if target.length < source.length ∧ relocated [] then ⟨source, false⟩
  else copyAssignElements relocated target source
termination_by (sizeOf target, 1)

/-- Assignment one by one; what is missing is constructed at the end, and what is left over is removed. -/
def copyAssignElements (relocated : List Nat → Bool) : List GenNode → List GenNode → Performed (List GenNode)
  | target :: targets, source :: sources =>
    let first := target.copyAssign (fun path => relocated (targets.length :: path)) source
    if first.raised then ⟨first.state :: targets, true⟩
    else
      let others := copyAssignElements relocated targets sources
      ⟨first.state :: others.state, others.raised⟩
  | _, sources => ⟨sources, false⟩
termination_by targets => (sizeOf targets, 0)

end

mutual

/-- Whether a node can be assigned by copy, element by element. -/
def GenNode.canAssign (relocated : List Nat → Bool) : GenNode → GenNode → Bool
  | .mk _ data, .mk _ data' => data.canAssign relocated data'
termination_by target => (sizeOf target, 0)

/-- Payloads: of the same type, and for records with corresponding contents. -/
def DataCap.canAssign (relocated : List Nat → Bool) : DataCap → DataCap → Bool
  | .record r, .record r' => r.canAssign relocated r'
  | d, d' => d.payloadType = d'.payloadType && d'.payloadType.isAssignable
termination_by target => (sizeOf target, 0)

/-- Records: both attributes and children. -/
def Record.canAssign (relocated : List Nat → Bool) : Record → Record → Bool
  | .mk _ attribs children, .mk _ attribs' children' =>
    canAssignVector (fun path => relocated (0 :: path)) attribs attribs' &&
      canAssignVector (fun path => relocated (1 :: path)) children children'
termination_by target => (sizeOf target, 0)

/-- Nothing is assigned when the storage is relocated. -/
def canAssignVector (relocated : List Nat → Bool) (target source : List GenNode) : Bool :=
  (target.length < source.length && relocated []) || canAssignElements relocated target source
termination_by (sizeOf target, 1)

/-- The nodes in the same place, as far as there are nodes in both sequences. -/
def canAssignElements (relocated : List Nat → Bool) : List GenNode → List GenNode → Bool
  | target :: targets, source :: sources =>
    target.canAssign (fun path => relocated (targets.length :: path)) source &&
      canAssignElements relocated targets sources
  | _, _ => true
termination_by targets => (sizeOf targets, 0)

end

section

variable {d d' source result : DataCap} {n target : GenNode} {relocated : List Nat → Bool}

theorem DataCap.isSome_assign : (d.assign source).isSome = true ↔
    d.payloadType = source.payloadType ∧ source.payloadType.isAssignable = true := by
  cases d <;> cases source <;> simp [DataCap.assign, payloadType, PayloadType.isAssignable]
  rintro rfl
  rfl

theorem DataCap.eq_of_assign (h : d.assign source = some result) : result = source := by
  cases d <;> cases source <;> grind [DataCap.assign]

theorem DataCap.assign_congr (h : d.payloadType = d'.payloadType) : d.assign source = d'.assign source := by
  cases d <;> cases d' <;> cases h <;> cases source <;> rfl

theorem GenNode.isSome_assign : (target.assign n).isSome = true ↔
    target.data.payloadType = n.data.payloadType ∧ n.data.payloadType.isAssignable = true := by
  rw [GenNode.assign, Option.isSome_map, DataCap.isSome_assign]

theorem GenNode.eq_of_assign {assigned : GenNode} (h : target.assign n = some assigned) : assigned = n := by
  obtain ⟨data, hdata, rfl⟩ := Option.map_eq_some_iff.mp h
  rw [DataCap.eq_of_assign hdata]
  cases n
  rfl

/-! ## The outcome of an assignment by copy -/

theorem DataCap.copyAssign_of_not_record (h : ¬ (d.payloadType = .record ∧ source.payloadType = .record)) :
    d.copyAssign relocated source =
      if d.payloadType = source.payloadType ∧ source.payloadType.isAssignable = true then ⟨source, false⟩
      else ⟨d, true⟩ := by
  have heq : d.copyAssign relocated source =
      match d.assign source with
      | some assigned => ⟨assigned, false⟩
      | none => ⟨d, true⟩ := by
    rw [DataCap.copyAssign.eq_def]
    split
    · exact absurd ⟨rfl, rfl⟩ h
    · rfl
  rw [heq]
  cases hassign : d.assign source with
  | none => rw [if_neg fun h => by simpa [hassign] using isSome_assign.mpr h]
  | some assigned =>
    rw [if_pos (isSome_assign.mp (by rw [hassign, Option.isSome_some])), eq_of_assign hassign]

theorem DataCap.canAssign_of_not_record (h : ¬ (d.payloadType = .record ∧ source.payloadType = .record)) :
    d.canAssign relocated source = true ↔ d.payloadType = source.payloadType ∧ source.payloadType.isAssignable = true := by
  rw [DataCap.canAssign.eq_def]
  split
  · exact absurd ⟨rfl, rfl⟩ h
  · rw [Bool.and_eq_true, decide_eq_true_iff]

theorem GenNode.copyAssign_of_not_record
    (h : ¬ (target.data.payloadType = .record ∧ n.data.payloadType = .record)) :
    target.copyAssign relocated n =
      if target.data.payloadType = n.data.payloadType ∧ n.data.payloadType.isAssignable = true then ⟨n, false⟩
      else ⟨target, true⟩ := by
  obtain ⟨idi, data⟩ := target
  obtain ⟨idi', data'⟩ := n
  have hdata : ¬ (data.payloadType = .record ∧ data'.payloadType = .record) := h
  rw [GenNode.copyAssign, DataCap.copyAssign_of_not_record hdata]
  by_cases hassign : data.payloadType = data'.payloadType ∧ data'.payloadType.isAssignable = true
  · rw [if_pos hassign]
    exact (if_pos hassign).symm
  · rw [if_neg hassign]
    exact (if_neg hassign).symm

end

mutual

/-- **A node is copied as it is** when the nodes in the same place can be assigned, as far as the vectors are
not relocated. -/
theorem GenNode.copyAssign_of_canAssign : (target n : GenNode) → (relocated : List Nat → Bool) →
    target.canAssign relocated n = true → target.copyAssign relocated n = ⟨n, false⟩
  | .mk idi data, .mk idi' data', relocated, h => by
    rw [GenNode.canAssign] at h
    rw [GenNode.copyAssign, data.copyAssign_of_canAssign data' relocated h]
    rfl
termination_by target => (sizeOf target, 0)

theorem DataCap.copyAssign_of_canAssign (d source : DataCap) (relocated : List Nat → Bool)
    (h : d.canAssign relocated source = true) : d.copyAssign relocated source = ⟨source, false⟩ := by
  by_cases hrecord : d.payloadType = .record ∧ source.payloadType = .record
  · match d, source, hrecord with
    | .record r, .record r', _ =>
      rw [DataCap.canAssign] at h
      rw [DataCap.copyAssign, r.copyAssign_of_canAssign r' relocated h]
  · rw [DataCap.copyAssign_of_not_record hrecord, if_pos ((DataCap.canAssign_of_not_record hrecord).mp h)]
termination_by (sizeOf d, 0)

theorem Record.copyAssign_of_canAssign : (r r' : Record) → (relocated : List Nat → Bool) →
    r.canAssign relocated r' = true → r.copyAssign relocated r' = ⟨r', false⟩
  | .mk _ attribs children, .mk type attribs' children', relocated, h => by
    rw [Record.canAssign, Bool.and_eq_true] at h
    rw [Record.copyAssign, copyAssignVector_of_canAssign attribs attribs' _ h.1,
      copyAssignVector_of_canAssign children children' _ h.2]
    rfl
termination_by target => (sizeOf target, 0)

theorem copyAssignVector_of_canAssign (target source : List GenNode) (relocated : List Nat → Bool)
    (h : canAssignVector relocated target source = true) :
    copyAssignVector relocated target source = ⟨source, false⟩ := by
  rw [copyAssignVector]
  split
  · rfl
  · next hinPlace =>
      rw [canAssignVector, Bool.or_eq_true, Bool.and_eq_true, decide_eq_true_iff] at h
      exact copyAssignElements_of_canAssign target source relocated (h.resolve_left hinPlace)
termination_by (sizeOf target, 1)

theorem copyAssignElements_of_canAssign : (targets sources : List GenNode) → (relocated : List Nat → Bool) →
    canAssignElements relocated targets sources = true →
    copyAssignElements relocated targets sources = ⟨sources, false⟩
  | target :: targets, source :: sources, relocated, h => by
    rw [canAssignElements, Bool.and_eq_true] at h
    rw [copyAssignElements, target.copyAssign_of_canAssign source _ h.1,
      copyAssignElements_of_canAssign targets sources relocated h.2]
    rfl
  | [], sources, relocated, _ => by rw [copyAssignElements]; nofun
  | _ :: _, [], relocated, _ => by rw [copyAssignElements]; nofun
termination_by targets => (sizeOf targets, 0)

end

theorem GenNode.sym_copyAssign (relocated : List Nat → Bool) (target n : GenNode) (h : target.idi.sym = n.idi.sym) :
    (target.copyAssign relocated n).state.idi.sym = n.idi.sym := by
  obtain ⟨idi, data⟩ := target
  obtain ⟨idi', data'⟩ := n
  rw [GenNode.copyAssign]
  split
  · exact h
  · rfl

end Lumiera.Lib.Diff
