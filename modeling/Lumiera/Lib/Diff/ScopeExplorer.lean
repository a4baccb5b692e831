import Lumiera.Lib.Diff.GenNode
import Lumiera.Lib.Diff.RecordIteration

/-! # Exploring a tree of generic nodes (`lib/diff/gen-node.hpp`)

The iteration over a generic node is a stack of iterators, one for each nested scope which is being
visited: an advance first opens the scope of the current node, then advances, and leaves the scopes
which are exhausted. It delivers the tree in pre-order, the height of the stack being the nesting
level, if the iteration over each of the nested records ends properly; a nested record with
attributes and without children is the end of it. -/

namespace Lumiera.Lib.Diff

open List

/-! ## Locations within a scope -/

/-- Whether the collections of a record have storage allocated; this makes a difference for empty ones. -/
structure Allocation where
  /-- Storage is allocated for the attributes. -/
  attribs : Bool
  /-- Storage is allocated for the children. -/
  children : Bool
  deriving Repr

/-- The collections of a record in memory. -/
def Record.storage (r : Record) (alloc : Allocation) : RecordStorage GenNode where
  attribs_ := ⟨r.attribs, alloc.attribs || !r.attribs.isEmpty, by simp +contextual⟩
  children_ := ⟨r.children, alloc.children || !r.children.isEmpty, by simp +contextual⟩

/-- A location: a single node, or a position within a nested scope (`DataCap::Locator`). -/
structure Locator where
  /-- The single node, unless it has been passed. -/
  node_ : Option GenNode
  /-- The position within a nested scope. -/
  scope_ : RecordIter GenNode

namespace Locator

/-- The default constructed locator, which is exhausted. -/
def empty : Locator := ⟨none, .done⟩

/-- The location of a single node. -/
def ofNode (n : GenNode) : Locator := ⟨some n, .done⟩

/-- The begin of the scope of a record. -/
def ofRec (r : Record) (alloc : Allocation) : Locator := ⟨none, (r.storage alloc).begin⟩

/-- `checkPoint`: whether `get` is no null pointer. -/
def checkPoint (loc : Locator) : Bool := loc.node_.isSome || loc.scope_.isValid

/-- `yield`: the node `get` points to. -/
def yield (loc : Locator) : Option GenNode :=
  match loc.node_ with
  | some n => some n
  | none => loc.scope_.deref

/-- `iterNext`. -/
def iterNext (loc : Locator) : Option Locator :=
  match loc.node_ with
  | some _ => some ⟨none, loc.scope_⟩
  | none => loc.scope_.next.map fun scope => ⟨none, scope⟩

/-- The locator as a state core (`ScopeIter`). -/
def core : StateCore Locator GenNode where
  checkPoint := checkPoint
  yield := yield
  iterNext := iterNext

end Locator

/-- `DataCap::expand`: opens the scope of a nested record; a reference to a record is not followed. -/
def DataCap.expand (d : DataCap) (alloc : Allocation) : Locator :=
  match d with
  | .record r => .ofRec r alloc
  | _ => .empty

/-! ## The explorer -/

/-- The depth-first exploration of a node (`GenNode::ScopeExplorer`). -/
structure ScopeExplorer where
  /-- The scopes being visited, the innermost one first (the back of `scopes_`). -/
  scopes_ : List Locator
  /-- How the records yet to be entered are held in memory, in the order they are entered. -/
  alloc : ℕ → Allocation

namespace ScopeExplorer

/-- `depth`. -/
def depth (s : ScopeExplorer) : ℕ := s.scopes_.length

/-- `checkPoint`. -/
def checkPoint (s : ScopeExplorer) : Bool :=
  match s.scopes_ with
  | [] => false
  | current :: _ => current.checkPoint

/-- `yield`, together with the `level` reported there. -/
def yield (s : ScopeExplorer) : Option (GenNode × ℕ) :=
  match s.scopes_ with
  | [] => none
  | current :: _ => current.yield.map fun n => (n, s.depth)

/-- The loop which leaves exhausted scopes. -/
def leaveExhausted (scopes : List Locator) : List Locator := scopes.dropWhile fun loc => !loc.checkPoint

/-- `iterNext`. -/
def iterNext (s : ScopeExplorer) : Option ScopeExplorer :=
  match s.scopes_ with
  | [] => none
  | current :: outer =>
    current.yield.bind fun n =>
      current.iterNext.map fun advanced =>
        ⟨leaveExhausted (n.data.expand (s.alloc 0) :: advanced :: outer), fun k => s.alloc (k + 1)⟩

/-- The explorer as a state core. -/
def core : StateCore ScopeExplorer (GenNode × ℕ) where
  checkPoint := checkPoint
  yield := yield
  iterNext := iterNext

end ScopeExplorer

namespace GenNode

/-- `GenNode::begin`. -/
def begin (n : GenNode) (alloc : ℕ → Allocation) : ScopeExplorer := ⟨[.ofNode n], alloc⟩

/-- `GenNode::contains`: the loop over all nodes, looking for one which matches. -/
def contains (n : GenNode) (alloc : ℕ → Allocation) (matching : GenNode → Bool) (fuel : ℕ) : Option Bool :=
  ScopeExplorer.core.anyLoop (fun x => matching x.1) fuel (n.begin alloc)

end GenNode

/-! ## The tree in pre-order -/

mutual

/-- **The nodes of a tree in pre-order**, attributes before children, each with its nesting level. -/
def GenNode.preorder (level : ℕ) : GenNode → List (GenNode × ℕ)
  | .mk idi data => (.mk idi data, level) :: data.preorder (level + 1)

/-- The nodes within a payload; a reference to a record held elsewhere has none. -/
def DataCap.preorder (level : ℕ) : DataCap → List (GenNode × ℕ)
  | .record r => r.preorder level
  | _ => []

/-- The nodes within a record. -/
def Record.preorder (level : ℕ) : Record → List (GenNode × ℕ)
  | .mk _ attribs children => preorderAll level attribs ++ preorderAll level children

/-- The nodes of several trees. -/
def preorderAll (level : ℕ) : List GenNode → List (GenNode × ℕ)
  | [] => []
  | n :: ns => n.preorder level ++ preorderAll level ns

end

/-- **The condition on a node** under which its scope can be left again: it is no nested record, or
one which has children, or no attributes either. -/
def GenNode.Closed (n : GenNode) : Prop := ∀ r, n.data = .record r → r.attribs = [] ∨ r.children ≠ []

/-- The nodes directly within a payload. -/
def DataCap.scope : DataCap → List GenNode
  | .record r => r.attribs ++ r.children
  | _ => []

theorem GenNode.preorder_eq (level : ℕ) (n : GenNode) :
    n.preorder level = (n, level) :: n.data.preorder (level + 1) := by
  cases n
  rfl

theorem preorderAll_append (level : ℕ) (ns ms : List GenNode) :
    preorderAll level (ns ++ ms) = preorderAll level ns ++ preorderAll level ms := by
  induction ns with
  | nil => simp [preorderAll]
  | cons n ns ih => simp [preorderAll, ih]

theorem DataCap.preorder_eq (level : ℕ) (d : DataCap) : d.preorder level = preorderAll level d.scope := by
  cases d with
  | record r =>
    obtain ⟨type, attribs, children⟩ := r
    exact (preorderAll_append level attribs children).symm
  | _ => simp [DataCap.preorder, DataCap.scope, preorderAll]

/-! ## The scopes delivered -/

variable {ns : List GenNode}

theorem Locator.delivers_scope_iff {it : RecordIter GenNode} :
    Locator.core.Delivers ⟨none, it⟩ ns ↔ RecordIter.core.Delivers it ns :=
  StateCore.delivers_map_iff (f := fun it => (⟨none, it⟩ : Locator)) (fun _ => rfl) (fun _ => rfl)
    (fun _ => rfl)

/-- Opening the scope of a node delivers what is directly within it, if the node is closed. -/
theorem GenNode.delivers_expand_iff {n : GenNode} {alloc : Allocation} :
    Locator.core.Delivers (n.data.expand alloc) ns ↔ n.Closed ∧ ns = n.data.scope := by
  unfold GenNode.Closed
  cases hdata : n.data with
  | record r =>
    have hclosed : (r.storage alloc).Closed ↔ r.attribs = [] ∨ r.children ≠ [] := Iff.rfl
    rw [DataCap.expand, Locator.ofRec, Locator.delivers_scope_iff]
    constructor
    · intro h
      refine ⟨?_, h.unique ?_⟩
      · rintro r' ⟨⟩
        exact hclosed.mp ((r.storage alloc).closed_of_delivers h)
      · exact (r.storage alloc).delivers_contents ((r.storage alloc).closed_of_delivers h)
    · rintro ⟨h, rfl⟩
      exact (r.storage alloc).delivers_contents (hclosed.mpr (h r rfl))
  | _ =>
    simp only [DataCap.scope]
    rw [StateCore.delivers_of_exhausted rfl]
    simp

variable {alloc : ℕ → Allocation}

namespace ScopeExplorer

variable {loc : Locator} {outer : List Locator} {xs ys : List (GenNode × ℕ)}

theorem leaveExhausted_of_exhausted (h : loc.checkPoint = false) :
    leaveExhausted (loc :: outer) = leaveExhausted outer := by
  simp [leaveExhausted, h]

theorem leaveExhausted_of_valid (h : loc.checkPoint = true) : leaveExhausted (loc :: outer) = loc :: outer := by
  simp [leaveExhausted, h]

theorem delivers_of_valid (h : loc.checkPoint = true) :
    core.Delivers ⟨loc :: outer, alloc⟩ xs ↔
      ∃ n advanced rest, loc.yield = some n ∧ loc.iterNext = some advanced ∧
        core.Delivers ⟨leaveExhausted (n.data.expand (alloc 0) :: advanced :: outer),
          fun k => alloc (k + 1)⟩ rest ∧
        xs = (n, outer.length + 1) :: rest := by
  have hvalid : core.checkPoint ⟨loc :: outer, alloc⟩ = true := h
  rw [StateCore.delivers_of_valid hvalid]
  constructor
  · rintro ⟨a, t, rest, ha, ht, hrest, rfl⟩
    obtain ⟨n, hn, rfl⟩ := Option.map_eq_some_iff.mp ha
    obtain ⟨m, hm, ht⟩ := Option.bind_eq_some_iff.mp ht
    obtain rfl := Option.some.inj (hn.symm.trans hm)
    obtain ⟨advanced, hadvanced, rfl⟩ := Option.map_eq_some_iff.mp ht
    exact ⟨n, advanced, rest, hn, hadvanced, hrest, rfl⟩
  · rintro ⟨n, advanced, rest, hn, hadvanced, hrest, rfl⟩
    refine ⟨_, _, rest, ?_, ?_, hrest, rfl⟩
    · simp [core, yield, hn, depth]
    · simp [core, iterNext, hn, hadvanced]

/-- **Visiting a scope of closed nodes** delivers their trees, followed by whatever the outer scopes
deliver. -/
theorem delivers_scope (hloc : Locator.core.Delivers loc ns)
    (hclosed : ∀ x ∈ preorderAll (outer.length + 1) ns, x.1.Closed)
    (houter : ∀ alloc, core.Delivers ⟨leaveExhausted outer, alloc⟩ ys) (alloc : ℕ → Allocation) :
    core.Delivers ⟨leaveExhausted (loc :: outer), alloc⟩ (preorderAll (outer.length + 1) ns ++ ys) := by
  -- on the number of nodes still to be visited in this scope, the nested ones included
  induction hsize : (preorderAll (outer.length + 1) ns).length using Nat.strongRecOn
    generalizing loc outer ns ys alloc with
  | ind size ih =>
    cases hloc with
    | exhausted hend =>
      rw [leaveExhausted_of_exhausted hend]
      simpa [preorderAll] using houter alloc
    | @next _ advanced n ns hvalid hn hadvanced hrest =>
      simp only [preorderAll, GenNode.preorder_eq, DataCap.preorder_eq, cons_append, mem_cons,
        mem_append, length_cons, length_append] at hclosed hsize ⊢
      rw [leaveExhausted_of_valid hvalid, delivers_of_valid hvalid]
      refine ⟨n, advanced, _, hn, hadvanced, ?_, rfl⟩
      have hnode : n.Closed := hclosed _ (.inl rfl)
      have hnested : ∀ x ∈ preorderAll ((advanced :: outer).length + 1) n.data.scope, x.1.Closed :=
        fun x hx => hclosed x (.inr (.inl hx))
      have hless : (preorderAll ((advanced :: outer).length + 1) n.data.scope).length < size := by
        rw [length_cons]
        omega
      -- what remains of this scope is delivered after the scope of the node
      have hremainder : ∀ alloc, core.Delivers ⟨leaveExhausted (advanced :: outer), alloc⟩
          (preorderAll (outer.length + 1) ns ++ ys) :=
        fun alloc => ih _ (by omega) hrest (fun x hx => hclosed x (.inr (.inr hx))) houter alloc rfl
      rw [append_assoc]
      exact ih _ hless (GenNode.delivers_expand_iff.mpr ⟨hnode, rfl⟩) hnested hremainder _ rfl

/-- **Whatever visits a scope and returns from it** has found closed nodes only, and goes on with
the outer scopes. -/
theorem closed_of_delivers (h : core.Delivers ⟨leaveExhausted (loc :: outer), alloc⟩ xs) :
    (∃ ns, Locator.core.Delivers loc ns ∧ ∀ level, ∀ x ∈ preorderAll level ns, x.1.Closed) ∧ ∃ alloc ys,
    ys.length ≤ xs.length ∧ core.Delivers ⟨leaveExhausted outer, alloc⟩ ys := by
  induction hsize : xs.length using Nat.strongRecOn generalizing loc outer alloc xs with
  | ind size ih =>
    cases hcheck : loc.checkPoint with
    | false =>
      rw [leaveExhausted_of_exhausted hcheck] at h
      exact ⟨⟨[], .exhausted hcheck, by simp [preorderAll]⟩, alloc, xs, Nat.le_of_eq hsize, h⟩
    | true =>
      rw [leaveExhausted_of_valid hcheck, delivers_of_valid hcheck] at h
      obtain ⟨n, advanced, rest, hn, hadvanced, hrest, rfl⟩ := h
      rw [length_cons] at hsize
      obtain ⟨⟨ms, hms, hnested⟩, alloc', ys, hlen, hback⟩ := ih _ (by omega) hrest rfl
      obtain ⟨⟨ns, hns, hscope⟩, alloc'', zs, hlen', hleft⟩ := ih _ (by omega) hback rfl
      obtain ⟨hnode, rfl⟩ := GenNode.delivers_expand_iff.mp hms
      refine ⟨⟨n :: ns, .next hcheck hn hadvanced hns, ?_⟩, alloc'', zs, by omega, hleft⟩
      intro level x hx
      simp only [preorderAll, GenNode.preorder_eq, DataCap.preorder_eq, cons_append, mem_cons,
        mem_append] at hx
      rcases hx with rfl | hx | hx
      · exact hnode
      · exact hnested _ x hx
      · exact hscope _ x hx

end ScopeExplorer

/-! ## The tree delivered -/

theorem GenNode.delivers_preorder_iff {n : GenNode} :
    ScopeExplorer.core.Delivers (n.begin alloc) (n.preorder 1) ↔ ∀ x ∈ n.preorder 1, x.1.Closed := by
  have hroot : Locator.core.Delivers (.ofNode n) [n] := .next rfl rfl rfl (.exhausted rfl)
  have hall : preorderAll 1 [n] = n.preorder 1 := by simp [preorderAll]
  have hbegin : n.begin alloc = ⟨ScopeExplorer.leaveExhausted [.ofNode n], alloc⟩ := rfl
  rw [hbegin]
  constructor
  · intro h
    obtain ⟨⟨ns, hns, hclosed⟩, -⟩ := ScopeExplorer.closed_of_delivers h
    obtain rfl := hns.unique hroot
    exact hall ▸ hclosed 1
  · intro h
    have hdone : ∀ alloc, ScopeExplorer.core.Delivers ⟨ScopeExplorer.leaveExhausted [], alloc⟩ [] :=
      fun alloc => .exhausted rfl
    simpa [hall] using ScopeExplorer.delivers_scope hroot (hall.symm ▸ h) hdone alloc

/-- **The contents of records and trees.** The iteration over a record delivers its attributes
followed by its children exactly if it has children, or no attributes. The iteration over a tree
delivers its nodes in pre-order with their levels, and the search within it finds what matches,
exactly if this holds for each nested record. -/
theorem contents_delivered_iff {VAL : Type*} (src : RecordStorage VAL) (n : GenNode)
    (alloc : ℕ → Allocation) :
    (RecordIter.core.Delivers src.begin (src.attribs_.elms ++ src.children_.elms) ↔
      (src.attribs_.elms = [] ∨ src.children_.elms ≠ [])) ∧
    ((ScopeExplorer.core.Delivers (n.begin alloc) (n.preorder 1) ∧
        ∀ matching : GenNode → Bool, ∃ fuel found, n.contains alloc matching fuel = some found ∧
          (found = true ↔ ∃ x ∈ n.preorder 1, matching x.1 = true)) ↔
      ∀ x ∈ n.preorder 1, ∀ r, x.1.data = .record r → (r.attribs = [] ∨ r.children ≠ [])) := by
  refine ⟨⟨src.closed_of_delivers, src.delivers_contents⟩, ?_, ?_⟩
  · rintro ⟨hdelivers, -⟩
    exact GenNode.delivers_preorder_iff.mp hdelivers
  · intro h
    have hdelivers : ScopeExplorer.core.Delivers (n.begin alloc) (n.preorder 1) :=
      GenNode.delivers_preorder_iff.mpr h
    refine ⟨hdelivers, fun matching => ?_⟩
    obtain ⟨fuel, hfound⟩ := hdelivers.anyLoop fun x => matching x.1
    exact ⟨fuel, _, hfound, by simp⟩

/-- An object with one attribute and without children: neither the record nor the tree is delivered. -/
theorem not_delivered_attribute_only :
    let attrib : GenNode := .mk ⟨"α", 1⟩ (.plain .int 1)
    let object : Record := .mk "Obj" [attrib] []
    let node : GenNode := .mk ⟨"_CHILD_1", 2⟩ (.record object)
    ¬ RecordIter.core.Delivers (object.storage ⟨true, false⟩).begin [attrib] ∧
      ¬ ScopeExplorer.core.Delivers (node.begin fun _ => ⟨true, false⟩) (node.preorder 1) := by
  intro attrib object node
  have hopen : ¬ (object.storage ⟨true, false⟩).Closed := by
    rintro (h | h)
    · cases h
    · exact h rfl
  constructor
  · exact fun h => hopen ((object.storage _).closed_of_delivers h)
  · intro h
    have hnode : (node, 1) ∈ node.preorder 1 := by simp [GenNode.preorder_eq]
    exact hopen (GenNode.delivers_preorder_iff.mp h _ hnode object rfl)

end Lumiera.Lib.Diff
