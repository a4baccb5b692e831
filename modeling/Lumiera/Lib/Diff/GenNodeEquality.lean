import Mathlib.Logic.Equiv.List
import Lumiera.Lib.Diff.GenNode

/-! # Equality of nodes (`lib/diff/gen-node.cpp`)

Nodes are compared by their identity first, and then by their payload. The payload on the left decides
how this is done, and relies on the type hash within the identity, for the payload on the right to be of
the same type. Yet a reference is given the identity of a record. Thus a reference is dereferenced where a
record is expected, which raises an error when it is not bound.

The value of a plain payload stands for what is compared there. -/

namespace Lumiera.Lib.Diff

open List

universe u

/-! ## The comparison -/

mutual

/-- `operator== (GenNode, GenNode)`; without a result when an exception is raised. -/
def GenNode.equals : GenNode → GenNode → Option Bool
  | .mk idi data, .mk idi' data' => if idi.sameID idi' then data.matchData data' else some false
termination_by n1 n2 => sizeOf n1 + sizeOf n2

/-- `matchData`, by double dispatch on the payload of the left hand side. -/
def DataCap.matchData : DataCap → DataCap → Option Bool
  | .plain type val, .plain type' val' => if type = type' then some (val' == val) else none
  | .text s, .text s' => some (s' == s)
  -- `o_.get<Rec>() == val`, where a reference is dereferenced
  | .record val, .record r => r.equals val
  | .record val, .recRef (some r) => r.equals val
  | .recRef val, o => o.matchRecRef val
  | _, _ => none
termination_by d o => sizeOf d + sizeOf o + 1

/-- `matchRec (RecRef const&)` -/
def DataCap.matchRecRef : DataCap → Option Record → Option Bool
  | d, some rec => d.matchRec rec
  | .recRef val, none => some val.isNone
  | _, none => some false
termination_by d ref => sizeOf d + sizeOf ref

/-- `matchRec (Rec const&)` -/
def DataCap.matchRec : DataCap → Record → Option Bool
  | .record val, rec => rec.equals val
  | .recRef (some val), rec => rec.equals val
  | _, _ => some false
termination_by d rec => sizeOf d + sizeOf rec

/-- `operator== (Record, Record)` -/
def Record.equals : Record → Record → Option Bool
  | .mk type attribs children, .mk type' attribs' children' =>
    if type = type' then
      match equalVector attribs attribs' with
      | some true => equalVector children children'
      | result => result
    else some false
termination_by r1 r2 => sizeOf r1 + sizeOf r2

/-- The comparison of `std::vector`. -/
def equalVector (xs ys : List GenNode) : Option Bool :=
  if xs.length = ys.length then equalRange xs ys else some false
termination_by sizeOf xs + sizeOf ys + 1

/-- The comparison of elements one by one, as long as they are equal. -/
def equalRange : List GenNode → List GenNode → Option Bool
  | x :: xs, y :: ys =>
    match x.equals y with
    | some true => equalRange xs ys
    | result => result
  | _, _ => some true
termination_by xs ys => sizeOf xs + sizeOf ys

end

/-! ## How nodes are built -/

/-- The types of payload. -/
inductive PayloadType
  | plain (type : DataType)
  | text
  | recRef
  | record
  deriving DecidableEq, Repr

/-- **The identities**: the hash is built from the symbolic name and a tag for the type a node was built
from, which determines the type of the payload. Different identities have different hashes. -/
structure Identities (τ : Type u) where
  buildHash : String → τ → Nat
  payload : τ → PayloadType
  /-- The tag of `Record<GenNode>`. -/
  recTag : τ
  payload_recTag : payload recTag = .record
  injective : ∀ sym tag sym' tag', buildHash sym tag = buildHash sym' tag' → sym = sym' ∧ tag = tag'

variable {τ : Type u} (H : Identities τ)

namespace Identities

/-- The identity with the given name and type tag. -/
def id (sym : String) (tag : τ) : ID := ⟨sym, H.buildHash sym tag⟩

/-- **The nodes built** from values, from records nested to any depth, and as references. -/
inductive Built : GenNode → Prop
  | plain {sym : String} {tag : τ} {type : DataType} {val : Int} :
    H.payload tag = .plain type → Built (.mk (H.id sym tag) (.plain type val))
  | text {sym : String} {tag : τ} {s : String} : H.payload tag = .text → Built (.mk (H.id sym tag) (.text s))
  | record {sym : String} {tag : τ} {r : Record} : H.payload tag = .record →
    (∀ n ∈ r.attribs, Built n) → (∀ n ∈ r.children, Built n) → Built (.mk (H.id sym tag) (.record r))
  | recRef {sym : String} {tag : τ} {target : Option Record} : H.payload tag = .recRef →
    (∀ r, target = some r → ∀ n ∈ r.attribs, Built n) → (∀ r, target = some r → ∀ n ∈ r.children, Built n) →
    Built (.mk (H.id sym tag) (.recRef target))
  /-- `Ref (symbolicID)` -/
  | refSymbol {sym : String} : Built (.mk (H.id sym H.recTag) (.recRef none))
  /-- `Ref (oNode)`: the identity of the other node, and a reference to its record. -/
  | refNode {oNode : GenNode} {r : Record} : Built oNode → oNode.data.maybeAccessNestedRec = some r →
    Built (.mk oNode.idi (.recRef (some r)))

end Identities

/-! ## What equality is meant to be -/

mutual

/-- The node with all references replaced by the record referred to. -/
def GenNode.deref : GenNode → GenNode
  | .mk idi data => .mk idi data.deref
termination_by n => sizeOf n

/-- The payload with all references replaced. -/
def DataCap.deref : DataCap → DataCap
  | .record r => .record r.deref
  | .recRef (some r) => .record r.deref
  | d => d
termination_by d => sizeOf d

/-- The record with all references replaced. -/
def Record.deref : Record → Record
  | .mk type attribs children => .mk type (derefAll attribs) (derefAll children)
termination_by r => sizeOf r

/-- All these nodes with references replaced. -/
def derefAll : List GenNode → List GenNode
  | [] => []
  | n :: ns => n.deref :: derefAll ns
termination_by ns => sizeOf ns

end

mutual

/-- **A record is compared with an unbound reference** of the same identity, at the first place where both
nodes differ. The payload on the left decides; the operands are swapped below a record, not below a
reference. -/
inductive Clash : GenNode → GenNode → Prop
  | unbound {idi idi' : ID} {r : Record} : idi.sameID idi' → Clash (.mk idi (.record r)) (.mk idi' (.recRef none))
  | record {idi idi' : ID} {val r : Record} {data : DataCap} : idi.sameID idi' →
    data.maybeAccessNestedRec = some r → RecordClash r val → Clash (.mk idi (.record val)) (.mk idi' data)
  | recRef {idi idi' : ID} {val r : Record} {data : DataCap} : idi.sameID idi' →
    data.maybeAccessNestedRec = some r → RecordClash val r →
    Clash (.mk idi (.recRef (some val))) (.mk idi' data)

inductive RecordClash : Record → Record → Prop
  | attribs {type : String} {as bs cs ds : List GenNode} : ListClash as bs →
    RecordClash (.mk type as cs) (.mk type bs ds)
  | children {type : String} {as bs cs ds : List GenNode} : derefAll as = derefAll bs → ListClash cs ds →
    RecordClash (.mk type as cs) (.mk type bs ds)

inductive ListClash : List GenNode → List GenNode → Prop
  | here {x y : GenNode} {xs ys : List GenNode} : xs.length = ys.length → Clash x y → ListClash (x :: xs) (y :: ys)
  | there {x y : GenNode} {xs ys : List GenNode} : x.deref = y.deref → ListClash xs ys →
    ListClash (x :: xs) (y :: ys)

end

/-- **The comparison decides** whether both sides are the same, unless it raises due to a clash. -/
structure Decides (result : Option Bool) (clash same : Prop) : Prop where
  raises : result = none ↔ clash
  correct : ∀ equal, result = some equal → (equal = true ↔ same)

namespace Decides

variable {result result' : Option Bool} {clash clash' same same' : Prop}

theorem of_bool {b : Bool} (hclash : ¬ clash) (h : b = true ↔ same) : Decides (some b) clash same :=
  ⟨by simp [hclash], fun equal heq => Option.some.inj heq ▸ h⟩

theorem congr (h : Decides result clash same) (hclash : clash ↔ clash') (hsame : same ↔ same') :
    Decides result clash' same' :=
  ⟨h.raises.trans hclash, fun equal heq => (h.correct equal heq).trans hsame⟩

theorem andThen : Decides result clash same → Decides result' clash' same' →
    Decides (match result with | some true => result' | other => other) (clash ∨ same ∧ clash') (same ∧ same') := by
  intro h h'
  cases result with
  | none =>
    have hclash := h.raises.mp rfl
    exact ⟨by simp [hclash], nofun⟩
  | some equal =>
    have hno : ¬ clash := fun hclash => nomatch h.raises.mpr hclash
    cases equal with
    | false =>
      have hdiffer : ¬ same := fun hsame => nomatch (h.correct false rfl).mpr hsame
      refine ⟨by simp [hdiffer, hno], fun equal heq => ?_⟩
      cases heq
      simp [hdiffer]
    | true =>
      have hsame := (h.correct true rfl).mp rfl
      exact h'.congr (by simp [hsame, hno]) (by simp [hsame])

end Decides

/-! ## Payloads of nodes with the same identity -/

/-- A payload which a node with such an identity can have; a reference may stand in for a record. -/
def PayloadType.Fits : PayloadType → DataCap → Prop
  | .plain type, .plain type' _ => type = type'
  | .text, .text _ => True
  | .recRef, .recRef _ => True
  | .record, .record _ => True
  | .record, .recRef _ => True
  | _, _ => False

namespace Identities

variable {H} {n n' : GenNode} {r : Record}

theorem Built.exists_tag (h : H.Built n) : ∃ sym tag, n.idi = H.id sym tag ∧ (H.payload tag).Fits n.data := by
  induction h with
  | plain htag => exact ⟨_, _, rfl, by rw [htag]; rfl⟩
  | text htag => exact ⟨_, _, rfl, by rw [htag]; trivial⟩
  | record htag => exact ⟨_, _, rfl, by rw [htag]; trivial⟩
  | recRef htag => exact ⟨_, _, rfl, by rw [htag]; trivial⟩
  | refSymbol => exact ⟨_, _, rfl, by rw [H.payload_recTag]; trivial⟩
  | @refNode oNode r _ hrec ih =>
    obtain ⟨sym, tag, hidi, hfits⟩ := ih
    refine ⟨sym, tag, hidi, ?_⟩
    -- the other node has a record, or a reference to a record
    cases hdata : oNode.data with
    | plain type val => rw [hdata] at hrec; cases hrec
    | text s => rw [hdata] at hrec; cases hrec
    | recRef target =>
      rw [hdata] at hfits
      cases hpayload : H.payload tag with
      | plain type => rw [hpayload] at hfits; cases hfits
      | text => rw [hpayload] at hfits; cases hfits
      | recRef => trivial
      | record => trivial
    | record val =>
      rw [hdata] at hfits
      cases hpayload : H.payload tag with
      | plain type => rw [hpayload] at hfits; cases hfits
      | text => rw [hpayload] at hfits; cases hfits
      | recRef => trivial
      | record => trivial

theorem Built.same_identity (h : H.Built n) (h' : H.Built n') (hsame : n.idi.sameID n'.idi) :
    n.idi = n'.idi ∧ ∃ type : PayloadType, type.Fits n.data ∧ type.Fits n'.data := by
  obtain ⟨sym, tag, hidi, hfits⟩ := h.exists_tag
  obtain ⟨sym', tag', hidi', hfits'⟩ := h'.exists_tag
  have hhash : H.buildHash sym tag = H.buildHash sym' tag' := by
    rw [hidi, hidi'] at hsame
    exact eq_of_beq hsame
  obtain ⟨rfl, rfl⟩ := H.injective _ _ _ _ hhash
  exact ⟨hidi.trans hidi'.symm, _, hfits, hfits'⟩

theorem Built.nested (h : H.Built n) (hrec : n.data.maybeAccessNestedRec = some r) :
    (∀ m ∈ r.attribs, H.Built m) ∧ ∀ m ∈ r.children, H.Built m := by
  induction h with
  | plain => cases hrec
  | text => cases hrec
  | record _ hattribs hchildren =>
    cases hrec
    exact ⟨hattribs, hchildren⟩
  | recRef _ hattribs hchildren => exact ⟨hattribs r hrec, hchildren r hrec⟩
  | refSymbol => cases hrec
  | refNode _ hother ih =>
    cases hrec
    exact ih hother

end Identities

/-! ## What the comparison computes -/

namespace DataCap

variable {type : DataType} {val : Int} {s : String} {r r' : Record}

@[simp] theorem deref_plain : (plain type val).deref = plain type val := by simp [deref]

@[simp] theorem deref_text : (text s).deref = text s := by simp [deref]

@[simp] theorem deref_record : (record r).deref = record r.deref := by simp [deref]

@[simp] theorem deref_recRef_some : (recRef (some r)).deref = record r.deref := by simp [deref]

@[simp] theorem deref_recRef_none : (recRef none).deref = recRef none := by simp [deref]

@[simp] theorem matchData_unbound : (record r).matchData (recRef none) = none := by simp [matchData]

@[simp] theorem matchData_ref_record : (recRef (some r)).matchData (record r') = r.equals r' := by
  simp [matchData, matchRecRef, matchRec]

@[simp] theorem matchData_ref_ref : (recRef (some r)).matchData (recRef (some r')) = r.equals r' := by
  simp [matchData, matchRecRef, matchRec]

@[simp] theorem matchData_ref_unbound : (recRef (some r)).matchData (recRef none) = some false := by
  simp [matchData, matchRecRef, matchRec]

@[simp] theorem matchData_unbound_record : (recRef none).matchData (record r) = some false := by
  simp [matchData, matchRecRef]

@[simp] theorem matchData_unbound_ref {target : Option Record} :
    (recRef none).matchData (recRef target) = some target.isNone := by
  simp [matchData, matchRecRef]

end DataCap

theorem ID.sameID_self (i : ID) : i.sameID i = true := beq_self_eq_true _

theorem length_derefAll (ns : List GenNode) : (derefAll ns).length = ns.length := by
  induction ns with
  | nil => rw [derefAll]
  | cons n ns ih => rw [derefAll, length_cons, length_cons, ih]

theorem ListClash.length_eq {xs ys : List GenNode} : ListClash xs ys → xs.length = ys.length
  | .here hlength _ => congrArg Nat.succ hlength
  | .there _ hrest => congrArg Nat.succ hrest.length_eq

section Comparison

variable {idi idi' : ID} {data data' : DataCap} {val r : Record}

theorem Clash.sameID (h : Clash (.mk idi data) (.mk idi' data')) : idi.sameID idi' := by
  cases h <;> assumption

theorem clash_record_iff (hid : idi.sameID idi') (hrec : data'.maybeAccessNestedRec = some r) :
    Clash (.mk idi (.record val)) (.mk idi' data') ↔ RecordClash r val := by
  constructor
  · intro h
    cases h with
    | unbound => cases hrec
    | record _ hrec' hclash =>
      obtain rfl := Option.some.inj (hrec.symm.trans hrec')
      exact hclash
  · exact .record hid hrec

theorem clash_recRef_iff (hid : idi.sameID idi') (hrec : data'.maybeAccessNestedRec = some r) :
    Clash (.mk idi (.recRef (some val))) (.mk idi' data') ↔ RecordClash val r := by
  constructor
  · intro h
    cases h with
    | recRef _ hrec' hclash =>
      obtain rfl := Option.some.inj (hrec.symm.trans hrec')
      exact hclash
  · exact .recRef hid hrec

theorem not_clash (hrec : data.maybeAccessNestedRec = none ∨ data'.maybeAccessNestedRec = none)
    (hunbound : data' ≠ .recRef none ∨ ∀ val, data ≠ .record val) : ¬ Clash (.mk idi data) (.mk idi' data') := by
  intro h
  cases h with
  | unbound => exact hunbound.elim (fun hne => hne rfl) fun hne => hne _ rfl
  | record _ hrec' _ =>
    rcases hrec with hnone | hnone
    · cases hnone
    · rw [hnone] at hrec'
      cases hrec'
  | recRef _ hrec' _ =>
    rcases hrec with hnone | hnone
    · cases hnone
    · rw [hnone] at hrec'
      cases hrec'

end Comparison

section Spec

variable {H}

mutual

/-- What the comparison of nodes computes, by recursion over both of them. -/
theorem GenNode.equals_spec : (a b : GenNode) → H.Built a → H.Built b →
    Decides (a.equals b) (Clash a b) (a.deref = b.deref)
  | .mk idi data, .mk idi' data', ha, hb => by
    rw [GenNode.equals, GenNode.deref, GenNode.deref, GenNode.mk.injEq]
    by_cases hid : idi.sameID idi' = true
    · obtain ⟨heq, type, hfits, hfits'⟩ := ha.same_identity hb hid
      have hidi : idi = idi' := heq
      rw [if_pos hid, and_iff_right hidi]
      match hdata : data, hdata' : data', type, hfits, hfits' with
      | .plain t v, .plain t' v', .plain _, hfits, hfits' =>
        obtain rfl : t = t' := hfits.symm.trans hfits'
        rw [DataCap.matchData, if_pos rfl, DataCap.deref_plain, DataCap.deref_plain]
        refine .of_bool (not_clash (.inl rfl) (.inl nofun)) ?_
        simp only [beq_iff_eq, DataCap.plain.injEq, true_and]
        exact eq_comm
      | .text s, .text s', _, _, _ =>
        rw [DataCap.matchData, DataCap.deref_text, DataCap.deref_text]
        refine .of_bool (not_clash (.inl rfl) (.inl nofun)) ?_
        simp only [beq_iff_eq, DataCap.text.injEq]
        exact eq_comm
      | .record val, .record r, _, _, _ =>
        rw [DataCap.matchData, DataCap.deref_record, DataCap.deref_record, DataCap.record.injEq]
        exact (Record.equals_spec r val (hb.nested rfl) (ha.nested rfl)).congr
          (clash_record_iff hid rfl).symm eq_comm
      | .record val, .recRef (some r), _, _, _ =>
        rw [DataCap.matchData, DataCap.deref_record, DataCap.deref_recRef_some, DataCap.record.injEq]
        exact (Record.equals_spec r val (hb.nested rfl) (ha.nested rfl)).congr
          (clash_record_iff hid rfl).symm eq_comm
      | .record val, .recRef none, _, _, _ =>
        -- here an error is raised
        rw [DataCap.matchData_unbound]
        exact ⟨iff_of_true rfl (.unbound hid), nofun⟩
      | .recRef (some val), .record r, _, _, _ =>
        rw [DataCap.matchData_ref_record, DataCap.deref_recRef_some, DataCap.deref_record, DataCap.record.injEq]
        exact (Record.equals_spec val r (ha.nested rfl) (hb.nested rfl)).congr
          (clash_recRef_iff hid rfl).symm Iff.rfl
      | .recRef (some val), .recRef (some r), _, _, _ =>
        rw [DataCap.matchData_ref_ref, DataCap.deref_recRef_some, DataCap.deref_recRef_some,
          DataCap.record.injEq]
        exact (Record.equals_spec val r (ha.nested rfl) (hb.nested rfl)).congr
          (clash_recRef_iff hid rfl).symm Iff.rfl
      | .recRef (some val), .recRef none, _, _, _ =>
        rw [DataCap.matchData_ref_unbound]
        exact .of_bool (not_clash (.inr rfl) (.inr nofun)) (by simp)
      | .recRef none, .record r, _, _, _ =>
        rw [DataCap.matchData_unbound_record]
        exact .of_bool (not_clash (.inl rfl) (.inl nofun)) (by simp)
      | .recRef none, .recRef none, _, _, _ =>
        rw [DataCap.matchData_unbound_ref]
        exact .of_bool (not_clash (.inl rfl) (.inr nofun)) (by simp)
      | .recRef none, .recRef (some r), _, _, _ =>
        rw [DataCap.matchData_unbound_ref]
        exact .of_bool (not_clash (.inl rfl) (.inr nofun)) (by simp)
    · rw [if_neg hid]
      refine .of_bool (fun hclash => hid hclash.sameID) ?_
      simp only [Bool.false_eq_true, false_iff, not_and]
      rintro rfl
      exact absurd (ID.sameID_self _) hid
termination_by a b => sizeOf a + sizeOf b
decreasing_by all_goals (subst hdata hdata'; simp; omega)

/-- What the comparison of records computes. -/
theorem Record.equals_spec : (r1 r2 : Record) →
    ((∀ n ∈ r1.attribs, H.Built n) ∧ ∀ n ∈ r1.children, H.Built n) →
    ((∀ n ∈ r2.attribs, H.Built n) ∧ ∀ n ∈ r2.children, H.Built n) →
    Decides (r1.equals r2) (RecordClash r1 r2) (r1.deref = r2.deref)
  | .mk type attribs children, .mk type' attribs' children', h1, h2 => by
    rw [Record.equals, Record.deref, Record.deref, Record.mk.injEq]
    by_cases htype : type = type'
    · subst htype
      rw [if_pos rfl, and_iff_right rfl]
      have hattribs := equalVector_spec attribs attribs' h1.1 h2.1
      have hchildren := equalVector_spec children children' h1.2 h2.2
      refine (hattribs.andThen hchildren).congr ?_ Iff.rfl
      constructor
      · rintro (hclash | ⟨hsame, hclash⟩)
        · exact .attribs hclash
        · exact .children hsame hclash
      · rintro (hclash | ⟨hsame, hclash⟩)
        · exact .inl hclash
        · exact .inr ⟨hsame, hclash⟩
    · rw [if_neg htype]
      refine .of_bool ?_ (by simp [htype])
      rintro ⟨⟩ <;> exact htype rfl
termination_by r1 r2 => sizeOf r1 + sizeOf r2

/-- What the comparison of vectors computes. -/
theorem equalVector_spec (xs ys : List GenNode) (hxs : ∀ n ∈ xs, H.Built n) (hys : ∀ n ∈ ys, H.Built n) :
    Decides (equalVector xs ys) (ListClash xs ys) (derefAll xs = derefAll ys) := by
  rw [equalVector]
  by_cases hlength : xs.length = ys.length
  · rw [if_pos hlength]
    exact equalRange_spec xs ys hlength hxs hys
  · rw [if_neg hlength]
    refine .of_bool (fun hclash => hlength hclash.length_eq) ?_
    simp only [Bool.false_eq_true, false_iff]
    intro heq
    have := congrArg List.length heq
    rw [length_derefAll, length_derefAll] at this
    exact hlength this
termination_by sizeOf xs + sizeOf ys + 1

theorem equalRange_spec : (xs ys : List GenNode) → xs.length = ys.length → (∀ n ∈ xs, H.Built n) →
    (∀ n ∈ ys, H.Built n) →
    Decides (equalRange xs ys) (ListClash xs ys) (derefAll xs = derefAll ys)
  | [], [], _, _, _ => by
    have hnil : equalRange [] [] = some true := by simp [equalRange]
    rw [hnil]
    exact .of_bool nofun (by simp)
  | x :: xs, y :: ys, hlength, hxs, hys => by
    rw [equalRange, derefAll, derefAll, List.cons.injEq]
    have hrest : xs.length = ys.length := Nat.succ.inj hlength
    have hfirst := GenNode.equals_spec x y (hxs x mem_cons_self) (hys y mem_cons_self)
    have hothers := equalRange_spec xs ys hrest (fun n hn => hxs n (mem_cons_of_mem x hn))
      fun n hn => hys n (mem_cons_of_mem y hn)
    refine (hfirst.andThen hothers).congr ?_ Iff.rfl
    constructor
    · rintro (hclash | ⟨hsame, hclash⟩)
      · exact .here hrest hclash
      · exact .there hsame hclash
    · rintro (⟨_, hclash⟩ | ⟨hsame, hclash⟩)
      · exact .inl hclash
      · exact .inr ⟨hsame, hclash⟩
termination_by xs ys => sizeOf xs + sizeOf ys

end

end Spec

/-! ## Equality as a relation -/

section Laws

variable {a b c : GenNode} {d : DataCap} {r : Record}

theorem DataCap.deref_eq_record_iff {content : Record} :
    d.deref = .record content ↔ ∃ r, d.maybeAccessNestedRec = some r ∧ r.deref = content := by
  match d with
  | .plain type val => simp [maybeAccessNestedRec]
  | .text s => simp [maybeAccessNestedRec]
  | .record r => simp [maybeAccessNestedRec]
  | .recRef none => simp [maybeAccessNestedRec]
  | .recRef (some r) => simp [maybeAccessNestedRec]

theorem DataCap.deref_eq_unbound_iff : d.deref = .recRef none ↔ d = .recRef none := by
  match d with
  | .plain type val => simp
  | .text s => simp
  | .record r => simp
  | .recRef none => simp
  | .recRef (some r) => simp

theorem GenNode.deref_eq_iff : a.deref = b.deref ↔ a.idi = b.idi ∧ a.data.deref = b.data.deref := by
  obtain ⟨idi, data⟩ := a
  obtain ⟨idi', data'⟩ := b
  rw [deref, deref, GenNode.mk.injEq]
  rfl

/-- **The laws of equality** of three nodes: no comparison raises; equality is reflexive, symmetric and
transitive; a reference bound to a record is equal to the nodes with the same ID and the same contents,
and an unbound one just to unbound references with this ID, whichever the side. -/
structure EqualityLaws (a b c : GenNode) : Prop where
  returns : ∀ x ∈ [a, b, c], ∀ y ∈ [a, b, c], ∃ equal, x.equals y = some equal
  reflexive : a.equals a = some true
  symmetric : a.equals b = some true → b.equals a = some true
  transitive : a.equals b = some true → b.equals c = some true → a.equals c = some true
  bound : ∀ r, a.data = .recRef (some r) →
    (a.equals b = some true ↔ a.idi = b.idi ∧ ∃ r', b.data.maybeAccessNestedRec = some r' ∧ r'.deref = r.deref) ∧
    (b.equals a = some true ↔ a.idi = b.idi ∧ ∃ r', b.data.maybeAccessNestedRec = some r' ∧ r'.deref = r.deref)
  unbound : a.data = .recRef none →
    (a.equals b = some true ↔ a.idi = b.idi ∧ b.data = .recRef none) ∧
    (b.equals a = some true ↔ a.idi = b.idi ∧ b.data = .recRef none)

variable {H}

theorem Identities.Built.equals_eq_true_iff (ha : H.Built a) (hb : H.Built b) (hno : ¬ Clash a b) :
    (∃ equal, a.equals b = some equal) ∧ (a.equals b = some true ↔ a.deref = b.deref) := by
  have hspec := GenNode.equals_spec a b ha hb
  cases hresult : a.equals b with
  | none => exact absurd (hspec.raises.mp hresult) hno
  | some equal =>
    refine ⟨⟨equal, rfl⟩, ?_⟩
    rw [← hspec.correct equal hresult, Option.some.injEq]

/-- **The laws of equality hold exactly if none of the nodes clash**, that is, unless a record on the side
which decides is compared with an unbound reference of the same identity. -/
theorem Identities.Built.equalityLaws_iff (ha : H.Built a) (hb : H.Built b) (hc : H.Built c) :
    EqualityLaws a b c ↔ ∀ x ∈ [a, b, c], ∀ y ∈ [a, b, c], ¬ Clash x y := by
  have hbuilt : ∀ x ∈ [a, b, c], H.Built x := by
    simp only [forall_mem_cons]
    exact ⟨ha, hb, hc, nofun⟩
  constructor
  · intro h x hx y hy hclash
    obtain ⟨equal, hreturns⟩ := h.returns x hx y hy
    rw [(GenNode.equals_spec x y (hbuilt x hx) (hbuilt y hy)).raises.mpr hclash] at hreturns
    cases hreturns
  · intro hno
    have hall : ∀ x ∈ [a, b, c], ∀ y ∈ [a, b, c],
        (∃ equal, x.equals y = some equal) ∧ (x.equals y = some true ↔ x.deref = y.deref) :=
      fun x hx y hy => (hbuilt x hx).equals_eq_true_iff (hbuilt y hy) (hno x hx y hy)
    have hab := (hall a (by simp) b (by simp)).2
    have hba := (hall b (by simp) a (by simp)).2
    have hbound : ∀ r, a.data = .recRef (some r) → (a.deref = b.deref ↔
        a.idi = b.idi ∧ ∃ r', b.data.maybeAccessNestedRec = some r' ∧ r'.deref = r.deref) := by
      intro r hr
      rw [GenNode.deref_eq_iff, hr, DataCap.deref_recRef_some, eq_comm (a := DataCap.record _),
        DataCap.deref_eq_record_iff]
    have hunbound : a.data = .recRef none → (a.deref = b.deref ↔ a.idi = b.idi ∧ b.data = .recRef none) := by
      intro hnone
      rw [GenNode.deref_eq_iff, hnone, DataCap.deref_recRef_none, eq_comm (a := DataCap.recRef none),
        DataCap.deref_eq_unbound_iff]
    refine ⟨fun x hx y hy => (hall x hx y hy).1, ?_, ?_, ?_, ?_, ?_⟩
    · exact (hall a (by simp) a (by simp)).2.mpr rfl
    · intro h
      exact hba.mpr (hab.mp h).symm
    · intro h h'
      exact (hall a (by simp) c (by simp)).2.mpr ((hab.mp h).trans ((hall b (by simp) c (by simp)).2.mp h'))
    · intro r hr
      exact ⟨hab.trans (hbound r hr), hba.trans (eq_comm.trans (hbound r hr))⟩
    · intro hnone
      exact ⟨hab.trans (hunbound hnone), hba.trans (eq_comm.trans (hunbound hnone))⟩

/-! ## A record and its name -/

/-- Identities of records only. -/
def recordIdentities : Identities Unit where
  buildHash sym _ := Encodable.encode (sym.toList.map Char.toNat)
  payload _ := .record
  recTag := ()
  payload_recTag := rfl
  injective sym tag sym' tag' heq := by
    have hchars := Encodable.encode_injective heq
    have hinj : Function.Injective Char.toNat := fun c d hcd => Char.toNat_inj.mp hcd
    exact ⟨String.toList_inj.mp (map_injective_iff.mpr hinj hchars), rfl⟩

/-- An empty record with this name. -/
def emptyRecord (sym : String) : GenNode := .mk (recordIdentities.id sym ()) (.record (.mk "NIL" [] []))

/-- The reference by name. -/
def symbolRef (sym : String) : GenNode := .mk (recordIdentities.id sym ()) (.recRef none)

theorem built_emptyRecord (sym : String) : recordIdentities.Built (emptyRecord sym) := .record rfl nofun nofun

theorem built_symbolRef (sym : String) : recordIdentities.Built (symbolRef sym) := .refSymbol

/-- Records of different names. -/
theorem equalityLaws_records :
    EqualityLaws (emptyRecord "x") (emptyRecord "y") (emptyRecord "x") ↔
      ∀ x ∈ [emptyRecord "x", emptyRecord "y", emptyRecord "x"],
        ∀ y ∈ [emptyRecord "x", emptyRecord "y", emptyRecord "x"], ¬ Clash x y :=
  (built_emptyRecord "x").equalityLaws_iff (built_emptyRecord "y") (built_emptyRecord "x")

/-- **A record compared with a reference by its name** raises an error. -/
theorem not_equalityLaws_symbolRef :
    (emptyRecord "x").equals (symbolRef "x") = none ∧ (symbolRef "x").equals (emptyRecord "x") = some false ∧
      ¬ ∀ a b c, recordIdentities.Built a → recordIdentities.Built b → recordIdentities.Built c →
        EqualityLaws a b c := by
  have hraises : (emptyRecord "x").equals (symbolRef "x") = none := by
    rw [emptyRecord, symbolRef, GenNode.equals, if_pos (ID.sameID_self _), DataCap.matchData_unbound]
  have hother : (symbolRef "x").equals (emptyRecord "x") = some false := by
    rw [emptyRecord, symbolRef, GenNode.equals, if_pos (ID.sameID_self _), DataCap.matchData_unbound_record]
  refine ⟨hraises, hother, fun hclaim => ?_⟩
  have hlaws := hclaim _ _ _ (built_emptyRecord "x") (built_symbolRef "x") (built_symbolRef "x")
  obtain ⟨equal, hreturns⟩ := hlaws.returns (emptyRecord "x") (by simp) (symbolRef "x") (by simp)
  rw [hraises] at hreturns
  cases hreturns

end Laws

end Lumiera.Lib.Diff
