import Lumiera.Lib.Diff.TreeDiffReference

/-! # The layers of a record under the verbs of a diff

The mutator of a record has a layer for the attributes on top of one for the children. What an
operation does is stated here for the record as a whole: the layer selected by the element named in
the verb is changed, and the other one is left alone. Only the marks `END` and `ATTRIBS` are handed
through the layers. -/

namespace Lumiera.Lib.Diff

/-! ## The responsible layer -/

namespace TreeMutator

variable {β Elm : Type} {B : β → CollectionBinding β Elm} {b : β} {c : Content Elm}
  {par par' : TreeMutator β Elm} {n : GenNode} {e e' : Elm} {i : Nat}

theorem injectNew_here (happ : (B b).isApplicable n = .ok true) (hbuild : (B b).construct n = .ok e) :
    (childCollection b c par).injectNew B n = .ok (some (childCollection b (c.inject (B b).trait e) par)) := by
  rw [injectNew, happ]
  rw [hbuild]
  rfl

theorem injectNew_below (happ : (B b).isApplicable n = .ok false) (hpar : par.injectNew B n = .ok (some par')) :
    (childCollection b c par).injectNew B n = .ok (some (childCollection b c par')) := by
  rw [injectNew, happ, hpar]
  rfl

theorem matchSrc_here (happ : (B b).isApplicable n = .ok true) (hcurrent : c.current = some e)
    (hmatch : (B b).matchElement n e = true) : (childCollection b c par).matchSrc B n = .ok true := by
  rw [matchSrc, happ, hcurrent]
  exact congrArg Except.ok hmatch

theorem matchSrc_below (happ : (B b).isApplicable n = .ok false)
    (hpar : par.matchSrc B n = .ok true) : (childCollection b c par).matchSrc B n = .ok true := by
  rw [matchSrc, happ, hpar]
  rfl

theorem skipSrc_here (happ : (B b).isApplicable n = .ok true) (hcurrent : c.current = some e) :
    (childCollection b c par).skipSrc B n = .ok (childCollection b c.advance par) := by
  rw [skipSrc, happ, hcurrent]
  rfl

theorem skipSrc_below (happ : (B b).isApplicable n = .ok false) (hpar : par.skipSrc B n = .ok par') :
    (childCollection b c par).skipSrc B n = .ok (childCollection b c par') := by
  rw [skipSrc, happ, hpar]
  rfl

theorem acceptSrc_here (happ : (B b).isApplicable n = .ok true) (hcurrent : c.current = some e)
    (hmatch : (B b).matchElement n e = true) :
    (childCollection b c par).acceptSrc B n
      = .ok (some (childCollection b (c.moveIn (B b).trait (B b).movedFrom c.pos e).advance par)) := by
  rw [acceptSrc, happ, hcurrent]
  dsimp only [bind, Except.bind]
  rw [if_pos hmatch]
  rfl

theorem acceptSrc_below (happ : (B b).isApplicable n = .ok false) (hpar : par.acceptSrc B n = .ok (some par')) :
    (childCollection b c par).acceptSrc B n = .ok (some (childCollection b c par')) := by
  rw [acceptSrc, happ, hpar]
  rfl

theorem findSrc_here (happ : (B b).isApplicable n = .ok true)
    (hfound : Content.search ((B b).matchElement n) c.contentBuffer c.pos = some i)
    (he : c.contentBuffer[i]? = some e) :
    (childCollection b c par).findSrc B n
      = .ok (some (childCollection b (c.moveIn (B b).trait (B b).movedFrom i e) par)) := by
  rw [findSrc, happ, hfound]
  dsimp only [bind, Except.bind]
  rw [he]
  rfl

theorem findSrc_below (happ : (B b).isApplicable n = .ok false) (hpar : par.findSrc B n = .ok (some par')) :
    (childCollection b c par).findSrc B n = .ok (some (childCollection b c par')) := by
  rw [findSrc, happ, hpar]
  rfl

theorem assignElm_here (happ : (B b).isApplicable n = .ok true)
    (hfound : c.locate (B b).trait ((B b).matchElement n) = some i)
    (he : c.collection[i]? = some e) (hassign : (B b).assign e n = .ok (some e')) :
    (childCollection b c par).assignElm B n
      = .ok (some (childCollection b { c with collection := c.collection.set i e' } par)) := by
  rw [assignElm, happ, hfound]
  dsimp only [bind, Except.bind]
  rw [he]
  dsimp only
  rw [hassign]
  rfl

theorem assignElm_below (happ : (B b).isApplicable n = .ok false) (hpar : par.assignElm B n = .ok (some par')) :
    (childCollection b c par).assignElm B n = .ok (some (childCollection b c par')) := by
  rw [assignElm, happ, hpar]
  rfl

theorem acceptUntil_all {H : RefHash} (hall : acceptsAll H (B b) n = .ok true)
    (hpar : par.acceptUntil B H n = .ok (some par')) :
    (childCollection b c par).acceptUntil B H n
      = .ok (some (childCollection b
          (c.acceptWhileNot (B b).trait (B b).movedFrom (fun _ => false) c.pending) par')) := by
  rw [acceptUntil, hall, hpar]
  rfl

theorem acceptUntil_here {H : RefHash} (hsome : acceptsAll H (B b) n = .ok false)
    (happ : (B b).isApplicable n = .ok true)
    (hcurrent : (c.acceptWhileNot (B b).trait (B b).movedFrom ((B b).matchElement n)
      c.pending).current = some e) (hmatch : (B b).matchElement n e = true) :
    (childCollection b c par).acceptUntil B H n
      = .ok (some (childCollection b
          ((c.acceptWhileNot (B b).trait (B b).movedFrom ((B b).matchElement n) c.pending).moveIn
            (B b).trait (B b).movedFrom
            (c.acceptWhileNot (B b).trait (B b).movedFrom ((B b).matchElement n) c.pending).pos
            e).advance par)) := by
  rw [acceptUntil, hsome, happ]
  dsimp only [bind, Except.bind]
  rw [hcurrent]
  dsimp only
  rw [if_pos hmatch]
  rfl

theorem acceptUntil_below {H : RefHash} (hsome : acceptsAll H (B b) n = .ok false)
    (happ : (B b).isApplicable n = .ok false) (hpar : par.acceptUntil B H n = .ok (some par')) :
    (childCollection b c par).acceptUntil B H n = .ok (some (childCollection b c par')) := by
  rw [acceptUntil, hsome, happ, hpar]
  rfl

theorem mutateChild_here {sub : TreeMutator β Elm} (happ : (B b).isApplicable n = .ok true)
    (hfound : c.locate (B b).trait ((B b).matchElement n) = some i)
    (he : c.collection[i]? = some e) (hopen : (B b).openSub e n.idi = .ok (some sub)) :
    (childCollection b c par).mutateChild B n = .ok (some (⟨0, i⟩, sub)) := by
  rw [mutateChild, happ, hfound]
  dsimp only [bind, Except.bind]
  rw [he]
  dsimp only
  rw [hopen]
  rfl

theorem mutateChild_below {locus : Locus} {sub : TreeMutator β Elm}
    (happ : (B b).isApplicable n = .ok false)
    (hpar : par.mutateChild B n = .ok (some (locus, sub))) :
    (childCollection b c par).mutateChild B n = .ok (some (locus.outward, sub)) := by
  rw [mutateChild, happ, hpar]
  rfl

end TreeMutator

/-! ## The layers of a record -/

/-- The type and the two collections of a record, as bound by its mutator. -/
structure RecordContent where
  type : String
  attribs : Content GenNode
  children : Content GenNode

namespace RecordContent

/-- The layers built for a record. -/
def mutator (m : RecordContent) : TreeMutator RecordScope GenNode :=
  .objectTypeHandler m.type
    (.childCollection .attribs m.attribs (.childCollection .children m.children .base))

/-- One of the collections. -/
def get (m : RecordContent) : RecordScope → Content GenNode
  | .attribs => m.attribs
  | .children => m.children

/-- The record with another content of one of the collections. -/
def put (m : RecordContent) (c : Content GenNode) : RecordScope → RecordContent
  | .attribs => { m with attribs := c }
  | .children => { m with children := c }

variable {H : RefHash} {husk : GenNode → GenNode} {m : RecordContent} {n e e' : GenNode} {i : Nat}

theorem isNamed_refATTRIBS : H.refATTRIBS.isNamed = true := by
  show (!"_CHILD_".toList.isPrefixOf "_ATTRIBS_".toList) = true
  decide

theorem isNamed_of_isTypeID (h : n.isTypeID = true) : n.isNamed = true := by
  unfold GenNode.isNamed
  rw [← beq_iff_eq.mp h]
  decide

theorem isApplicable_attribs {named : Bool} (hnamed : n.isNamed = named) :
    (genNodeBinding H husk .attribs).isApplicable n = .ok named := congrArg Except.ok hnamed

theorem isApplicable_children (hfree : n.isReserved H = false) (hnamed : n.isNamed = false) :
    (genNodeBinding H husk .children).isApplicable n = .ok true := by
  have hother : n.matchNode H.refATTRIBS = false := by
    unfold GenNode.isReserved at hfree
    rw [hnamed] at hfree
    exact hfree
  show ((n.specEqualsMarker H.refATTRIBS).map (!·)).elim (Except.error TreeDiffError.failure)
    Except.ok = Except.ok true
  unfold GenNode.specEqualsMarker
  rw [hother]
  rfl

/-- **The selectors**: a named element is handled by the layer of the attributes, any other one is
passed on to the layer of the children. -/
theorem cases_scope (husk : GenNode → GenNode) (hfree : n.isReserved H = false) :
    (n.scope = .attribs ∧ (genNodeBinding H husk .attribs).isApplicable n = .ok true) ∨
    (n.scope = .children ∧ (genNodeBinding H husk .attribs).isApplicable n = .ok false ∧
      (genNodeBinding H husk .children).isApplicable n = .ok true) := by
  cases hnamed : n.isNamed with
  | true =>
    refine .inl ⟨?_, isApplicable_attribs hnamed⟩
    rw [GenNode.scope, hnamed]
    rfl
  | false =>
    refine .inr ⟨?_, isApplicable_attribs hnamed, isApplicable_children hfree hnamed⟩
    rw [GenNode.scope, hnamed]
    rfl

section Free

variable (hfree : n.isReserved H = false)

include hfree

theorem injectNew_mutator (htype : n.isTypeID = false) :
    m.mutator.injectNew (genNodeBinding H husk) n
      = .ok (some (m.put ((m.get n.scope).inject .vector n) n.scope).mutator) := by
  rw [mutator, TreeMutator.injectNew, htype, Bool.and_false]
  rcases cases_scope husk hfree with ⟨hscope, happ⟩ | ⟨hscope, hpass, happ⟩
  · rw [hscope, TreeMutator.injectNew_here happ rfl]
    rfl
  · rw [hscope, TreeMutator.injectNew_below hpass (TreeMutator.injectNew_here happ rfl)]
    rfl

theorem matchSrc_mutator (hcurrent : (m.get n.scope).current = some e)
    (hmatch : n.matchNode e = true) : m.mutator.matchSrc (genNodeBinding H husk) n = .ok true := by
  rcases cases_scope husk hfree with ⟨hscope, happ⟩ | ⟨hscope, hpass, happ⟩
  · rw [hscope] at hcurrent
    exact TreeMutator.matchSrc_here happ hcurrent hmatch
  · rw [hscope] at hcurrent
    exact TreeMutator.matchSrc_below hpass (TreeMutator.matchSrc_here happ hcurrent hmatch)

theorem skipSrc_mutator (hcurrent : (m.get n.scope).current = some e) :
    m.mutator.skipSrc (genNodeBinding H husk) n = .ok (m.put (m.get n.scope).advance n.scope).mutator := by
  rw [mutator, TreeMutator.skipSrc]
  rcases cases_scope husk hfree with ⟨hscope, happ⟩ | ⟨hscope, hpass, happ⟩
  · rw [hscope] at hcurrent ⊢
    rw [TreeMutator.skipSrc_here (c := m.attribs) happ hcurrent]
    rfl
  · rw [hscope] at hcurrent ⊢
    rw [TreeMutator.skipSrc_below hpass (TreeMutator.skipSrc_here (c := m.children) happ hcurrent)]
    rfl

theorem acceptSrc_mutator
    (hcurrent : (m.get n.scope).current = some e) (hmatch : n.matchNode e = true) :
    m.mutator.acceptSrc (genNodeBinding H husk) n
      = .ok (some (m.put ((m.get n.scope).moveIn .vector husk (m.get n.scope).pos e).advance
          n.scope).mutator) := by
  rw [mutator, TreeMutator.acceptSrc]
  rcases cases_scope husk hfree with ⟨hscope, happ⟩ | ⟨hscope, hpass, happ⟩
  · rw [hscope] at hcurrent ⊢
    rw [TreeMutator.acceptSrc_here (c := m.attribs) happ hcurrent hmatch]
    rfl
  · rw [hscope] at hcurrent ⊢
    rw [TreeMutator.acceptSrc_below hpass (TreeMutator.acceptSrc_here (c := m.children) happ hcurrent hmatch)]
    rfl

theorem findSrc_mutator
    (hfound : Content.search n.matchNode (m.get n.scope).contentBuffer (m.get n.scope).pos = some i)
    (he : (m.get n.scope).contentBuffer[i]? = some e) :
    m.mutator.findSrc (genNodeBinding H husk) n
      = .ok (some (m.put ((m.get n.scope).moveIn .vector husk i e) n.scope).mutator) := by
  rw [mutator, TreeMutator.findSrc]
  rcases cases_scope husk hfree with ⟨hscope, happ⟩ | ⟨hscope, hpass, happ⟩
  · rw [hscope] at hfound he ⊢
    rw [TreeMutator.findSrc_here (c := m.attribs) happ hfound he]
    rfl
  · rw [hscope] at hfound he ⊢
    rw [TreeMutator.findSrc_below hpass (TreeMutator.findSrc_here (c := m.children) happ hfound he)]
    rfl

theorem assignElm_mutator (htype : n.isTypeID = false)
    (hfound : (m.get n.scope).locate .vector n.matchNode = some i)
    (he : (m.get n.scope).collection[i]? = some e) (hassign : RecordDraft.assign n e = some e') :
    m.mutator.assignElm (genNodeBinding H husk) n
      = .ok (some (m.put { m.get n.scope with collection := (m.get n.scope).collection.set i e' }
          n.scope).mutator) := by
  obtain ⟨data, hdata, rfl⟩ := Option.map_eq_some_iff.mp hassign
  have hbinding : ∀ scope, (genNodeBinding H husk scope).assign e n
      = .ok (some (.mk e.idi data)) := by
    intro scope
    show (e.data.assign n.data).elim (Except.error TreeDiffError.failure)
      (fun data => Except.ok (some (GenNode.mk e.idi data))) = _
    rw [hdata]
    rfl
  rw [mutator, TreeMutator.assignElm, htype, Bool.and_false]
  rcases cases_scope husk hfree with ⟨hscope, happ⟩ | ⟨hscope, hpass, happ⟩
  · rw [hscope] at hfound he ⊢
    rw [TreeMutator.assignElm_here (c := m.attribs) happ hfound he (hbinding _)]
    rfl
  · rw [hscope] at hfound he ⊢
    rw [TreeMutator.assignElm_below hpass
      (TreeMutator.assignElm_here (c := m.children) happ hfound he (hbinding _))]
    rfl

end Free

theorem mutateChild_mutator (husk : GenNode → GenNode) {r : Record} (hfree : n.isReserved H = false)
    (hfound : (m.get n.scope).locate .vector n.matchNode = some i)
    (he : (m.get n.scope).collection[i]? = some e) (hmatch : n.matchNode e = true)
    (hnested : e.data.maybeAccessNestedRec = some r) :
    ∃ locus, m.mutator.mutateChild (genNodeBinding H husk) n
        = .ok (some (locus, r.buildMutator.init)) ∧
      ∀ sub, TreeMutator.writeBack (genNodeBinding H husk) sub locus.elm locus.layer m.mutator
        = (m.put { m.get n.scope with
            collection := (m.get n.scope).collection.set i
              (.mk e.idi (e.data.setNestedRec (.ofMutator sub))) } n.scope).mutator := by
  have hbinding : ∀ scope, (genNodeBinding H husk scope).openSub e n.idi
      = .ok (some r.buildMutator.init) := by
    intro scope
    have hsame : e.idi.sameID n.idi = true := by
      show (e.idi.hash == n.idi.hash) = true
      rw [beq_iff_eq.mp hmatch, beq_self_eq_true]
    show (if e.idi.sameID n.idi then
      Except.ok (e.data.maybeAccessNestedRec.map fun r => r.buildMutator.init)
      else Except.ok none) = _
    rw [if_pos hsame, hnested]
    rfl
  have hmodify : ∀ (xs : List GenNode) (f : GenNode → GenNode), xs[i]? = some e →
      xs.modify i f = xs.set i (f e) := by
    intro xs f hxs
    rw [List.modify_eq_set_getElem?, hxs]
    rfl
  rw [mutator, TreeMutator.mutateChild]
  rcases cases_scope husk hfree with ⟨hscope, happ⟩ | ⟨hscope, hpass, happ⟩
  · rw [hscope] at hfound he ⊢
    rw [TreeMutator.mutateChild_here (c := m.attribs) happ hfound he (hbinding _)]
    refine ⟨_, rfl, fun sub => ?_⟩
    show mutator { m with attribs := { m.attribs with collection := m.attribs.collection.modify i _ } }
      = _
    rw [hmodify m.attribs.collection _ he]
    rfl
  · rw [hscope] at hfound he ⊢
    rw [TreeMutator.mutateChild_below hpass
      (TreeMutator.mutateChild_here (c := m.children) happ hfound he (hbinding _))]
    refine ⟨_, rfl, fun sub => ?_⟩
    show mutator { m with
      children := { m.children with collection := m.children.collection.modify i _ } } = _
    rw [hmodify m.children.collection _ he]
    rfl

/-- All elements of one of the collections, with the mark `END` or `ATTRIBS`. -/
def acceptAll (husk : GenNode → GenNode) (c : Content GenNode) : Content GenNode :=
  c.acceptWhileNot .vector husk (fun _ => false) c.pending

theorem acceptUntil_END (hend : n.matchNode H.refEND = true)
    (hmark : H.refEND.equalsMarker n = true) :
    m.mutator.acceptUntil (genNodeBinding H husk) H n
      = .ok (some (mutator ⟨m.type, acceptAll husk m.attribs, acceptAll husk m.children⟩)) := by
  have hall : ∀ scope, TreeMutator.acceptsAll H (genNodeBinding H husk scope) n = .ok true :=
    fun scope => if_pos hend
  have hbase : (TreeMutator.base : TreeMutator RecordScope GenNode).acceptUntil
      (genNodeBinding H husk) H n = .ok (some .base) := by
    rw [TreeMutator.acceptUntil, hmark]
    rfl
  rw [mutator, TreeMutator.acceptUntil,
    TreeMutator.acceptUntil_all (hall _) (TreeMutator.acceptUntil_all (hall _) hbase)]
  rfl

/-- The mark `ATTRIBS` is taken for a name by the layer of the attributes, and passed on to the base
by the one of the children. -/
theorem acceptUntil_ATTRIBS (hend : n.matchNode H.refEND = false)
    (hattribs : n.matchNode H.refATTRIBS = true) (hmark : H.refATTRIBS.equalsMarker n = true) :
    m.mutator.acceptUntil (genNodeBinding H husk) H n
      = .ok (some (mutator { m with attribs := acceptAll husk m.attribs })) := by
  have hdata : n.data = .recRef none := by
    have hpayload := (Bool.and_eq_true _ _ ▸ hmark).2
    split at hpayload
    · assumption
    · cases hpayload
  have hmarked : ∀ spec : GenNode, spec.matchNode H.refATTRIBS = true → spec.data = .recRef none →
      (genNodeBinding H husk .children).isApplicable spec = .ok false := by
    intro spec hspec hpayload
    show ((spec.specEqualsMarker H.refATTRIBS).map (!·)).elim (Except.error TreeDiffError.failure)
      Except.ok = Except.ok false
    unfold GenNode.specEqualsMarker
    rw [if_pos hspec, hpayload]
    rfl
  have hall : TreeMutator.acceptsAll H (genNodeBinding H husk .attribs) n = .ok true := by
    unfold TreeMutator.acceptsAll
    rw [if_neg (by rw [hend]; exact Bool.false_ne_true), if_pos hattribs]
    exact isApplicable_attribs isNamed_refATTRIBS
  have hsome : TreeMutator.acceptsAll H (genNodeBinding H husk .children) n = .ok false := by
    unfold TreeMutator.acceptsAll
    rw [if_neg (by rw [hend]; exact Bool.false_ne_true), if_pos hattribs]
    exact hmarked _ (beq_self_eq_true _) rfl
  have hbase : (TreeMutator.base : TreeMutator RecordScope GenNode).acceptUntil
      (genNodeBinding H husk) H n = .ok (some .base) := by
    rw [TreeMutator.acceptUntil, hmark, Bool.or_true]
    rfl
  rw [mutator, TreeMutator.acceptUntil, TreeMutator.acceptUntil_all hall
    (TreeMutator.acceptUntil_below hsome (hmarked n hattribs hdata) hbase)]
  rfl

theorem acceptUntil_mutator (hfree : n.isReserved H = false) (hend : n.matchNode H.refEND = false)
    (hattribs : n.matchNode H.refATTRIBS = false)
    (hcurrent : ((m.get n.scope).acceptWhileNot .vector husk n.matchNode
      (m.get n.scope).pending).current = some e) (hmatch : n.matchNode e = true) :
    m.mutator.acceptUntil (genNodeBinding H husk) H n
      = .ok (some (m.put (((m.get n.scope).acceptWhileNot .vector husk n.matchNode
          (m.get n.scope).pending).moveIn .vector husk ((m.get n.scope).acceptWhileNot .vector husk
          n.matchNode (m.get n.scope).pending).pos e).advance n.scope).mutator) := by
  have hsome : ∀ scope, TreeMutator.acceptsAll H (genNodeBinding H husk scope) n = .ok false := by
    intro scope
    unfold TreeMutator.acceptsAll
    rw [hend, hattribs]
    rfl
  rw [mutator, TreeMutator.acceptUntil]
  rcases cases_scope husk hfree with ⟨hscope, happ⟩ | ⟨hscope, hpass, happ⟩
  · rw [hscope] at hcurrent ⊢
    rw [TreeMutator.acceptUntil_here (c := m.attribs) (hsome _) happ hcurrent hmatch]
    rfl
  · rw [hscope] at hcurrent ⊢
    rw [TreeMutator.acceptUntil_below (hsome _) hpass
      (TreeMutator.acceptUntil_here (c := m.children) (hsome _) happ hcurrent hmatch)]
    rfl

end RecordContent

end Lumiera.Lib.Diff
