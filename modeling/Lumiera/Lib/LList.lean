import Lumiera.Base.LinkedRing

/-! # Intrusive doubly linked lists (`lib/llist.h`)

A list is a ring of nodes, each with a link to the next and to the previous one; one of the nodes
can be used as root. All operations are sequences of assignments to these links, in the order of the
source. -/

namespace Lumiera.Lib.LList

universe u

open Links

variable {ι : Type u}

/-! ## Assignments -/

section Assignments

variable [DecidableEq ι]

/-- `self->next = other` -/
def setNext (h : Links ι) (self other : ι) : Links ι := { h with next := Function.update h.next self other }

/-- `self->prev = other` -/
def setPrev (h : Links ι) (self other : ι) : Links ι := { h with prev := Function.update h.prev self other }

@[simp] theorem next_setNext (h : Links ι) (self other x : ι) :
    (setNext h self other).next x = if x = self then other else h.next x :=
  Function.update_apply ..

@[simp] theorem prev_setNext (h : Links ι) (self other x : ι) : (setNext h self other).prev x = h.prev x := rfl

@[simp] theorem next_setPrev (h : Links ι) (self other x : ι) : (setPrev h self other).next x = h.next x := rfl

@[simp] theorem prev_setPrev (h : Links ι) (self other x : ι) :
    (setPrev h self other).prev x = if x = self then other else h.prev x :=
  Function.update_apply ..

/-! ## Operations -/

/-- Check if a node is not linked with some other node (`llist_is_empty`). -/
def isEmpty (h : Links ι) (self : ι) : Bool := h.next self = self

/-- Unlink a node, but leave its own links as they are (`llist_unlink_fast_`). -/
def unlinkFast (h : Links ι) (self : ι) : Links ι :=
  let nxt := h.next self
  let pre := h.prev self
  let h := setPrev h nxt pre
  setNext h pre nxt

/-- Remove a node from a list (`llist_unlink`). -/
def unlink (h : Links ι) (self : ι) : Links ι :=
  let h := unlinkFast h self
  let h := setPrev h self self
  setNext h self self

/-- Insert a node after another (`llist_insert_next`). -/
def insertNext (h : Links ι) (self next : ι) : Links ι :=
  let h := unlinkFast h next
  let h := setPrev h (h.next self) next
  let h := setPrev h next self
  let h := setNext h next (h.next self)
  setNext h self next

/-- Insert a node before another (`llist_insert_prev`). -/
def insertPrev (h : Links ι) (self prev : ι) : Links ι :=
  let h := unlinkFast h prev
  let h := setNext h (h.prev self) prev
  let h := setNext h prev self
  let h := setPrev h prev (h.prev self)
  setPrev h self prev

/-- Move the content of a list after a node in another list (`llist_insertlist_next`). -/
def insertlistNext (h : Links ι) (self next : ι) : Links ι :=
  if isEmpty h next then h
  else
    let h := setPrev h (h.next self) (h.prev next)
    let h := setNext h (h.prev next) (h.next self)
    let h := setNext h self (h.next next)
    let h := setPrev h (h.next next) self
    let h := setNext h next next
    setPrev h next next

/-- Move the content of a list before a node in another list (`llist_insertlist_prev`). -/
def insertlistPrev (h : Links ι) (self prev : ι) : Links ι :=
  if isEmpty h prev then h
  else
    let h := setNext h (h.prev self) (h.next prev)
    let h := setPrev h (h.next prev) (h.prev self)
    let h := setPrev h self (h.prev prev)
    let h := setNext h (h.prev prev) self
    let h := setNext h prev prev
    setPrev h prev prev

/-- Swap a node with its next node (`llist_advance`). -/
def advance (h : Links ι) (self : ι) : Links ι :=
  let tmp := h.next (h.next self)
  let h := setPrev h tmp self
  let h := setPrev h (h.next self) (h.prev self)
  let h := setNext h (h.prev self) (h.next self)
  let h := setPrev h self (h.next self)
  let h := setNext h (h.next self) self
  setNext h self tmp

/-- Swap a node with its previous node (`llist_retreat`). -/
def retreat (h : Links ι) (self : ι) : Links ι :=
  let tmp := h.prev (h.prev self)
  let h := setNext h tmp self
  let h := setNext h (h.prev self) (h.next self)
  let h := setPrev h (h.next self) (h.prev self)
  let h := setNext h self (h.prev self)
  let h := setPrev h (h.prev self) self
  setPrev h self tmp

/-- The loop of `llist_ufind`, continued at a node; the number of rounds is limited, and there is no result
beyond. -/
def ufindFrom (cmp : ι → Int) (self : ι) : Nat → Links ι → ι → Option (Links ι × Option ι)
  | 0, _, _ => none
  | rounds + 1, h, node =>
    if node = self then some (h, none)
    else if cmp node = 0 then
      some (if h.next self ≠ node then insertNext h self node else h, some node)
    else ufindFrom cmp self rounds h (h.next node)

/-- Find a node in an unsorted list, and move it to the head (`llist_ufind`). -/
def ufind (cmp : ι → Int) (rounds : Nat) (h : Links ι) (self : ι) : Option (Links ι × Option ι) :=
  ufindFrom cmp self rounds h (h.next self)

/-- The loop of `llist_sfind`, which ends at a node bigger than the one searched. -/
def sfindFrom (cmp : ι → Int) (self : ι) (h : Links ι) : Nat → ι → Option (Option ι)
  | 0, _ => none
  | rounds + 1, node =>
    if node = self then some none
    else if cmp node = 0 then some (some node)
    else if cmp node > 0 then some none
    else sfindFrom cmp self h rounds (h.next node)

/-- Find a node in a sorted list (`llist_sfind`). -/
def sfind (cmp : ι → Int) (rounds : Nat) (h : Links ι) (self : ι) : Option (Option ι) :=
  sfindFrom cmp self h rounds (h.next self)

/-! ## What the assignments amount to -/

section Exchange

variable {h : Links ι} {self other : ι}

theorem unlink_eq (hprev : h.Edge (h.prev self) self) (hnext : h.Edge self (h.next self)) :
    unlink h self = h.exchange (h.prev self) self := by
  obtain ⟨hpn, -⟩ := hprev
  obtain ⟨-, hnp⟩ := hnext
  ext x
  · simp only [unlink, unlinkFast, exchange, next_setNext, next_setPrev]
    grind
  · simp only [unlink, unlinkFast, exchange, prev_setNext, prev_setPrev]
    grind

theorem insertNext_eq (hne : self ≠ other) : insertNext h self other = (unlink h other).exchange self other := by
  ext x
  · simp only [insertNext, unlink, exchange, next_setNext, next_setPrev]
    grind
  · simp only [insertNext, unlink, unlinkFast, exchange, prev_setNext, prev_setPrev, next_setNext,
      next_setPrev]
    grind

theorem insertPrev_eq (hne : self ≠ other) (hedge : (unlink h other).Edge ((unlink h other).prev self) self) :
    insertPrev h self other = (unlink h other).exchange ((unlink h other).prev self) other := by
  obtain ⟨hedge, -⟩ := hedge
  simp only [unlink, unlinkFast, prev_setNext, prev_setPrev, next_setNext, next_setPrev] at hedge
  ext x
  · simp only [insertPrev, unlink, unlinkFast, exchange, prev_setNext, prev_setPrev, next_setNext,
      next_setPrev]
    grind
  · simp only [insertPrev, unlink, unlinkFast, exchange, prev_setNext, prev_setPrev, next_setNext,
      next_setPrev]
    grind

theorem insertlistNext_eq (hself : h.Edge self (h.next self)) (hprev : h.Edge (h.prev other) other)
    (hnext : h.Edge other (h.next other)) (hne : self ≠ other) (hpne : self ≠ h.prev other) :
    insertlistNext h self other = (h.exchange self (h.prev other)).exchange self other := by
  obtain ⟨-, hs⟩ := hself
  obtain ⟨hp, -⟩ := hprev
  obtain ⟨-, hn⟩ := hnext
  unfold insertlistNext isEmpty
  split_ifs with hempty
  · ext x <;> simp only [exchange] <;> grind
  · ext x <;> simp only [exchange, prev_setNext, prev_setPrev, next_setNext, next_setPrev] <;> grind

theorem insertlistPrev_eq (hself : h.Edge (h.prev self) self) (hprev : h.Edge (h.prev other) other)
    (hnext : h.Edge other (h.next other)) (hne : h.prev self ≠ other) (hpne : h.prev self ≠ h.prev other) :
    insertlistPrev h self other = (h.exchange (h.prev self) (h.prev other)).exchange (h.prev self) other := by
  obtain ⟨hs, -⟩ := hself
  obtain ⟨hp, -⟩ := hprev
  obtain ⟨-, hn⟩ := hnext
  unfold insertlistPrev isEmpty
  split_ifs with hempty
  · ext x <;> simp only [exchange] <;> grind
  · ext x <;> simp only [exchange, prev_setNext, prev_setPrev, next_setNext, next_setPrev] <;> grind

theorem advance_eq (hprev : h.Edge (h.prev self) self) (hnext : h.Edge self (h.next self))
    (hafter : h.Edge (h.next self) (h.next (h.next self)))
    (hpair : h.next (h.next self) ≠ self ∨ h.next self = self) :
    advance h self = (unlink h self).exchange (h.next self) self := by
  obtain ⟨hp, -⟩ := hprev
  obtain ⟨-, hn⟩ := hnext
  obtain ⟨-, ha⟩ := hafter
  ext x
  · simp only [advance, unlink, unlinkFast, exchange, prev_setPrev, next_setNext, next_setPrev]
    grind
  · simp only [advance, unlink, unlinkFast, exchange, prev_setNext, prev_setPrev, next_setNext, next_setPrev]
    grind

theorem retreat_eq (hprev : h.Edge (h.prev self) self) (hnext : h.Edge self (h.next self))
    (hbefore : h.Edge (h.prev (h.prev self)) (h.prev self))
    (hpair : h.prev (h.prev self) ≠ self ∨ h.prev self = self) :
    retreat h self = (unlink h self).exchange ((unlink h self).prev (h.prev self)) self := by
  obtain ⟨hp, -⟩ := hprev
  obtain ⟨-, hn⟩ := hnext
  obtain ⟨hb, -⟩ := hbefore
  ext x
  · simp only [retreat, unlink, unlinkFast, exchange, prev_setNext, prev_setPrev, next_setNext, next_setPrev]
    grind
  · simp only [retreat, unlink, unlinkFast, exchange, prev_setNext, prev_setPrev, next_setNext, next_setPrev]
    grind

end Exchange

end Assignments

/-! ## What the list operations do to rings

Each operation on intrusive lists corresponds to an operation on cyclic sequences: taking out a
node, inserting, splicing, swapping neighbours, moving to the front. This holds for a family of
disjoint rings of any sizes, with one exception: swapping the two nodes of a ring of two corrupts
its links, since the neighbour of the neighbour is the node itself there, and its link is
overwritten before it is read. -/

/-! ## Operations on cyclic sequences -/

/-- An operation on intrusive lists, with the nodes it is applied to. -/
inductive Operation (ι : Type u)
  | unlink (self : ι)
  | insertNext (self next : ι)
  | insertPrev (self prev : ι)
  | insertlistNext (self next : ι)
  | insertlistPrev (self prev : ι)
  | advance (self : ι)
  | retreat (self : ι)
  | ufind (self : ι) (cmp : ι → Int)

namespace Operation

/-- The operation can be applied: nodes belong to the rings; a node is not inserted next to itself,
and a list is not moved into itself. -/
def Applicable (rings : Multiset (Cycle ι)) : Operation ι → Prop
  | unlink self | advance self | retreat self | ufind self _ => self ∈ nodes rings
  | insertNext self other | insertPrev self other =>
    self ∈ nodes rings ∧ other ∈ nodes rings ∧ self ≠ other
  | insertlistNext self other | insertlistPrev self other =>
    self ∈ nodes rings ∧ other ∈ nodes rings ∧ ∀ ring ∈ rings, ¬ (self ∈ ring ∧ other ∈ ring)

/-- **The corresponding operation on cyclic sequences**, and the node returned. The sequences are written down
beginning with the node in question; a sequence of no nodes is no ring. -/
inductive Effect : Operation ι → Multiset (Cycle ι) → Option ι → Multiset (Cycle ι) → Prop
  | unlink {self : ι} {rest : List ι} {others : Multiset (Cycle ι)} :
      Effect (.unlink self) (ring (self :: rest) + others) (some self) (ring [self] + ring rest + others)
  | insertNext {self next : ι} {rest behind : List ι} {others rings : Multiset (Cycle ι)} :
      ring rest + rings = ring (self :: behind) + others →
        Effect (.insertNext self next) (ring (next :: rest) + rings) (some self)
          (ring (self :: next :: behind) + others)
  | insertPrev {self prev : ι} {rest behind : List ι} {others rings : Multiset (Cycle ι)} :
      ring rest + rings = ring (self :: behind) + others →
        Effect (.insertPrev self prev) (ring (prev :: rest) + rings) (some self)
          (ring (prev :: self :: behind) + others)
  | insertlistNext {self next : ι} {rest content : List ι} {others : Multiset (Cycle ι)} :
      Effect (.insertlistNext self next) (ring (self :: rest) + ring (next :: content) + others) (some self)
        (ring (self :: content ++ rest) + ring [next] + others)
  | insertlistPrev {self prev : ι} {rest content : List ι} {others : Multiset (Cycle ι)} :
      Effect (.insertlistPrev self prev) (ring (self :: rest) + ring (prev :: content) + others) (some self)
        (ring (self :: rest ++ content) + ring [prev] + others)
  | advanceSingle {self : ι} {others : Multiset (Cycle ι)} :
      Effect (.advance self) (ring [self] + others) (some self) (ring [self] + others)
  | advance {self next : ι} {rest : List ι} {others : Multiset (Cycle ι)} :
      Effect (.advance self) (ring (self :: next :: rest) + others) (some self)
        (ring (next :: self :: rest) + others)
  | retreatSingle {self : ι} {others : Multiset (Cycle ι)} :
      Effect (.retreat self) (ring [self] + others) (some self) (ring [self] + others)
  | retreat {self prev : ι} {rest : List ι} {others : Multiset (Cycle ι)} :
      Effect (.retreat self) (ring (prev :: self :: rest) + others) (some self)
        (ring (self :: prev :: rest) + others)
  | ufind {self node : ι} {cmp : ι → Int} {before behind : List ι} {others : Multiset (Cycle ι)} :
      (∀ x ∈ before, cmp x ≠ 0) → cmp node = 0 →
        Effect (.ufind self cmp) (ring (self :: before ++ node :: behind) + others) (some node)
          (ring (self :: node :: before ++ behind) + others)
  | ufindNone {self : ι} {cmp : ι → Int} {content : List ι} {others : Multiset (Cycle ι)} :
      (∀ x ∈ content, cmp x ≠ 0) →
        Effect (.ufind self cmp) (ring (self :: content) + others) none (ring (self :: content) + others)

variable [DecidableEq ι]

/-- Perform the operation on the links; a search has a limited number of rounds. -/
def perform (rounds : Nat) (h : Links ι) : Operation ι → Option (Links ι × Option ι)
  | .unlink self => some (LList.unlink h self, some self)
  | .insertNext self next => some (LList.insertNext h self next, some self)
  | .insertPrev self prev => some (LList.insertPrev h self prev, some self)
  | .insertlistNext self next => some (LList.insertlistNext h self next, some self)
  | .insertlistPrev self prev => some (LList.insertlistPrev h self prev, some self)
  | .advance self => some (LList.advance h self, some self)
  | .retreat self => some (LList.retreat h self, some self)
  | .ufind self cmp => LList.ufind cmp rounds h self

/-- **The operation does on the links what it means for the rings**: with sufficiently many rounds
it returns, and the links represent the rings changed accordingly. -/
def Corresponds (op : Operation ι) (h : Links ι) (rings : Multiset (Cycle ι)) : Prop :=
  ∃ result rings', op.Effect rings result rings' ∧
    ∃ limit, ∀ rounds, limit ≤ rounds → ∃ h', op.perform rounds h = some (h', result) ∧ h'.Holds rings'

/-- The two nodes of a ring of two are to be swapped. -/
def SwapsPair (h : Links ι) : Operation ι → Prop
  | .advance self => h.next self ≠ self ∧ h.next (h.next self) = self
  | .retreat self => h.prev self ≠ self ∧ h.prev (h.prev self) = self
  | _ => False

instance (h : Links ι) : (op : Operation ι) → Decidable (op.SwapsPair h)
  | .advance self => inferInstanceAs (Decidable (h.next self ≠ self ∧ h.next (h.next self) = self))
  | .retreat self => inferInstanceAs (Decidable (h.prev self ≠ self ∧ h.prev (h.prev self) = self))
  | .unlink _ | .insertNext _ _ | .insertPrev _ _ | .insertlistNext _ _ | .insertlistPrev _ _ | .ufind _ _ =>
    .isFalse id

end Operation

/-! ## Each operation -/

variable [DecidableEq ι] {h : Links ι} {self other x y : ι} {A B : List ι} {F G : Multiset (Cycle ι)}

/-- Removal. -/
theorem unlink_holds (hold : h.Holds (ring (self :: A) + F)) : (unlink h self).Holds (ring [self] + ring A + F) := by
  rw [unlink_eq (hold.edge_prev mem_nodes_ring) (hold.edge_next mem_nodes_ring)]
  exact hold.takeOut

/-- Insertion after a node. -/
theorem insertNext_holds (hne : self ≠ other) (hold : h.Holds (ring (other :: B) + G))
    (hself : ring B + G = ring (self :: A) + F) :
    (insertNext h self other).Holds (ring (self :: other :: A) + F) := by
  rw [insertNext_eq hne]
  have hunlinked := unlink_holds hold
  rw [add_assoc, hself] at hunlinked
  exact hunlinked.putIn

/-- Insertion before a node. -/
theorem insertPrev_holds (hne : self ≠ other) (hold : h.Holds (ring (other :: B) + G))
    (hself : ring B + G = ring (self :: A) + F) :
    (insertPrev h self other).Holds (ring (other :: self :: A) + F) := by
  have hunlinked := unlink_holds hold
  rw [add_assoc, hself] at hunlinked
  have hmem : self ∈ nodes (ring [other] + (ring (self :: A) + F)) :=
    mem_nodes_ring_add.mpr (.inr mem_nodes_ring)
  rw [insertPrev_eq hne (hunlinked.edge_prev hmem)]
  exact hunlinked.putBefore

/-- Splicing after a node. -/
theorem insertlistNext_holds (hold : h.Holds (ring (self :: A) + ring (other :: B) + F)) :
    (insertlistNext h self other).Holds (ring (self :: B ++ A) + ring [other] + F) := by
  have hother : h.Holds (ring (other :: B) + (ring (self :: A) + F)) := by
    rw [← add_assoc, add_comm (ring (other :: B))]
    exact hold
  have hself : self ∈ nodes (ring (self :: A) + ring (other :: B) + F) := by
    rw [add_assoc]
    exact mem_nodes_ring
  rw [insertlistNext_eq (hold.edge_next hself) (hother.edge_prev mem_nodes_ring)
    (hother.edge_next mem_nodes_ring)
    (hold.ne_of_mem List.mem_cons_self List.mem_cons_self)
    (hold.ne_of_mem List.mem_cons_self hother.prev_mem)]
  exact hold.splice

/-- Splicing before a node. -/
theorem insertlistPrev_holds (hold : h.Holds (ring (self :: A) + ring (other :: B) + F)) :
    (insertlistPrev h self other).Holds (ring (self :: A ++ B) + ring [other] + F) := by
  have hother : h.Holds (ring (other :: B) + (ring (self :: A) + F)) := by
    rw [← add_assoc, add_comm (ring (other :: B))]
    exact hold
  have hself : h.Holds (ring (self :: A) + (ring (other :: B) + F)) := by
    rw [← add_assoc]
    exact hold
  rw [insertlistPrev_eq (hself.edge_prev mem_nodes_ring) (hother.edge_prev mem_nodes_ring)
    (hother.edge_next mem_nodes_ring) (hold.ne_of_mem hself.prev_mem List.mem_cons_self)
    (hold.ne_of_mem hself.prev_mem hother.prev_mem)]
  -- the content is spliced in after the predecessor, which is the last node of the ring
  rcases List.eq_nil_or_concat A with rfl | ⟨C, p, rfl⟩
  · rw [hself.prev_single]
    have hspliced := hold.splice
    rw [List.append_nil] at hspliced
    exact hspliced
  · rw [List.concat_eq_append] at hold hself ⊢
    have hrotated : ring (self :: (C ++ [p])) = ring (p :: self :: C) := ring_append_comm (self :: C) [p]
    have hrotated' : ring (self :: (C ++ [p]) ++ B) = ring (p :: B ++ self :: C) := by
      rw [← List.cons_append, List.append_assoc]
      exact ring_append_comm (self :: C) (p :: B)
    rw [hself.prev_eq, hrotated']
    rw [hrotated] at hold
    exact hold.splice

/-- Swapping with the successor. -/
theorem advance_holds (hold : h.Holds (ring (self :: other :: A) + F))
    (hpair : h.next (h.next self) ≠ self ∨ h.next self = self) :
    (advance h self).Holds (ring (other :: self :: A) + F) := by
  have hnext : h.next self = other := (holds_ring_add.mp hold).1.1.1
  have hmem : h.next self ∈ nodes (ring (self :: other :: A) + F) :=
    mem_nodes_ring_add.mpr (.inl (by rw [hnext]; exact List.mem_cons_of_mem self List.mem_cons_self))
  rw [advance_eq (hold.edge_prev mem_nodes_ring) (hold.edge_next mem_nodes_ring)
    (hold.edge_next hmem) hpair, hnext]
  have hunlinked := unlink_holds hold
  rw [add_assoc] at hunlinked
  exact hunlinked.putIn

theorem advance_single_holds (hold : h.Holds (ring [self] + F)) : (advance h self).Holds (ring [self] + F) := by
  have hnext : h.next self = self := (holds_ring_add.mp hold).1.1
  have hedge := hold.edge_next mem_nodes_ring
  have hunlinked := unlink_holds hold
  rw [advance_eq (hold.edge_prev mem_nodes_ring) hedge (by rw [hnext]; exact hedge) (.inr hnext), hnext,
    exchange_self (hunlinked.edge_next mem_nodes_ring)]
  exact hunlinked

/-- Swapping with the predecessor. -/
theorem retreat_holds (hold : h.Holds (ring (other :: self :: A) + F))
    (hpair : h.prev (h.prev self) ≠ self ∨ h.prev self = self) :
    (retreat h self).Holds (ring (self :: other :: A) + F) := by
  have hprev : h.prev self = other := (holds_ring_add.mp hold).1.1.2
  have hrotated : ring (other :: self :: A) = ring (self :: (A ++ [other])) :=
      ring_append_comm [other] (self :: A)
  have hself : self ∈ nodes (ring (other :: self :: A) + F) := by
    rw [hrotated]
    exact mem_nodes_ring
  have hmem : h.prev self ∈ nodes (ring (other :: self :: A) + F) := by
    rw [hprev]
    exact mem_nodes_ring
  rw [retreat_eq (hold.edge_prev hself) (hold.edge_next hself) (hold.edge_prev hmem) hpair, hprev]
  rw [hrotated] at hold
  have hunlinked := unlink_holds hold
  rw [ring_append_comm A, add_assoc] at hunlinked
  exact hunlinked.putBefore

theorem retreat_single_holds (hold : h.Holds (ring [self] + F)) : (retreat h self).Holds (ring [self] + F) := by
  have hprev := hold.prev_single
  have hedge := hold.edge_prev mem_nodes_ring
  have hunlinked := unlink_holds hold
  rw [retreat_eq hedge (hold.edge_next mem_nodes_ring) (by rw [hprev]; exact hedge) (.inr hprev), hprev,
    hunlinked.prev_single, exchange_self (hunlinked.edge_next mem_nodes_ring)]
  exact hunlinked

/-- Search visits the nodes of the ring one after the other, up to the first one which matches. -/
theorem ufindFrom_eq {cmp : ι → Int} (hpath : h.Path x A self) (hself : self ∉ A) {rounds : Nat}
    (hrounds : A.length < rounds) :
    ufindFrom cmp self rounds h (h.next x) = some (match A.find? fun y => cmp y = 0 with
      | none => (h, none)
      | some node => (if h.next self ≠ node then insertNext h self node else h, some node)) := by
  induction A generalizing x rounds with
  | nil =>
    obtain ⟨rounds, rfl⟩ := Nat.exists_eq_succ_of_ne_zero (Nat.pos_iff_ne_zero.mp hrounds)
    rw [ufindFrom, if_pos hpath.1]
    rfl
  | cons y A ih =>
    obtain ⟨rounds, rfl⟩ := Nat.exists_eq_succ_of_ne_zero (Nat.ne_of_gt (Nat.zero_lt_of_lt hrounds))
    obtain ⟨hne, hself⟩ := List.ne_and_not_mem_of_not_mem_cons hself
    rw [ufindFrom, hpath.1.1, if_neg hne.symm]
    by_cases hmatch : cmp y = 0
    · rw [if_pos hmatch, List.find?_cons_of_pos (by simpa using hmatch)]
    · rw [if_neg hmatch, List.find?_cons_of_neg (by simpa using hmatch)]
      exact ih hpath.2 hself (Nat.lt_of_succ_lt_succ hrounds)

/-- Moving to the front. -/
theorem moveToFront_holds (hold : h.Holds (ring (self :: A ++ x :: B) + F)) :
    (if h.next self ≠ x then insertNext h self x else h).Holds (ring (self :: x :: A ++ B) + F) := by
  obtain ⟨hpath, hnodup, -, -⟩ := holds_ring_add.mp hold
  cases A with
  | nil =>
    rw [if_neg (not_not.mpr hpath.1.1)]
    exact hold
  | cons y A =>
    have hne : y ≠ x := by
      rintro rfl
      exact (List.nodup_cons.mp (List.nodup_cons.mp hnodup).2).1
        (List.mem_append_right A List.mem_cons_self)
    have hself : self ≠ x := by
      rintro rfl
      exact (List.nodup_cons.mp hnodup).1 (List.mem_append_right (y :: A) List.mem_cons_self)
    rw [if_pos (by rw [hpath.1.1]; exact hne)]
    rw [ring_append_comm] at hold
    refine insertNext_holds hself hold ?_
    exact congrArg (· + F) (ring_append_comm B (self :: y :: A))

/-! ## All operations -/

theorem next_advance_of_pair (hpair : h.next (h.next self) = self) : (advance h self).next self = self := by
  simp [advance, hpair]

theorem prev_retreat_of_pair (hpair : h.prev (h.prev self) = self) : (retreat h self).prev self = self := by
  simp [retreat, hpair]

/-- Swapping the two nodes of a ring of two does not yield any ring. -/
theorem not_corresponds_of_swapsPair {op : Operation ι} (hold : h.Holds F) (hswaps : op.SwapsPair h) :
    ¬ op.Corresponds h F := by
  rintro ⟨result, rings', heffect, limit, hperform⟩
  obtain ⟨h', hresult, hold'⟩ := hperform limit le_rfl
  cases op with
  | advance self =>
    obtain ⟨hne, hpair⟩ := hswaps
    obtain ⟨rfl, -⟩ := Prod.mk.inj (Option.some.inj hresult)
    cases heffect with
    | advanceSingle => exact hne (holds_ring_add.mp hold).1.1
    | @advance _ next rest others =>
      have hrotated : ring (next :: self :: rest) = ring (self :: (rest ++ [next])) :=
        ring_append_comm [next] (self :: rest)
      rw [hrotated] at hold'
      refine absurd (next_advance_of_pair hpair) ?_
      cases rest with
      | nil => exact hold'.next_ne
      | cons z rest => exact hold'.next_ne
  | retreat self =>
    obtain ⟨hne, hpair⟩ := hswaps
    obtain ⟨rfl, -⟩ := Prod.mk.inj (Option.some.inj hresult)
    cases heffect with
    | retreatSingle => exact hne hold.prev_single
    | retreat =>
      -- the node which is its own predecessor would be its own successor
      have hedge := hold'.edge_prev mem_nodes_ring
      rw [prev_retreat_of_pair hpair] at hedge
      exact hold'.next_ne hedge.1
  | _ => exact hswaps

/-- **An operation on lists corresponds to the operation on rings**, unless it swaps the two nodes
of a ring of two: the result is again a family of disjoint rings, with the nodes where they should
be. -/
theorem corresponds_iff {op : Operation ι} (hold : h.Holds F) (happlicable : op.Applicable F) :
    op.Corresponds h F ↔ ¬ op.SwapsPair h := by
  refine ⟨fun hcorresponds hswaps => not_corresponds_of_swapsPair hold hswaps hcorresponds, fun hswaps => ?_⟩
  cases op with
  | unlink self =>
    obtain ⟨A, G, rfl⟩ := exists_ring happlicable
    exact ⟨_, _, .unlink, 0, fun _ _ => ⟨_, rfl, unlink_holds hold⟩⟩
  | insertNext self other =>
    obtain ⟨hself, hother, hne⟩ := happlicable
    obtain ⟨B, G, rfl⟩ := exists_ring hother
    obtain ⟨A, F, hring⟩ := exists_ring (mem_nodes_of_ne hself hne)
    exact ⟨_, _, .insertNext hring, 0, fun _ _ => ⟨_, rfl, insertNext_holds hne hold hring⟩⟩
  | insertPrev self other =>
    obtain ⟨hself, hother, hne⟩ := happlicable
    obtain ⟨B, G, rfl⟩ := exists_ring hother
    obtain ⟨A, F, hring⟩ := exists_ring (mem_nodes_of_ne hself hne)
    exact ⟨_, _, .insertPrev hring, 0, fun _ _ => ⟨_, rfl, insertPrev_holds hne hold hring⟩⟩
  | insertlistNext self other =>
    obtain ⟨hself, hother, hseparate⟩ := happlicable
    obtain ⟨A, B, G, rfl⟩ := exists_rings hself hother hseparate
    exact ⟨_, _, .insertlistNext, 0, fun _ _ => ⟨_, rfl, insertlistNext_holds hold⟩⟩
  | insertlistPrev self other =>
    obtain ⟨hself, hother, hseparate⟩ := happlicable
    obtain ⟨A, B, G, rfl⟩ := exists_rings hself hother hseparate
    exact ⟨_, _, .insertlistPrev, 0, fun _ _ => ⟨_, rfl, insertlistPrev_holds hold⟩⟩
  | advance self =>
    obtain ⟨A, G, rfl⟩ := exists_ring happlicable
    have hpair : h.next (h.next self) ≠ self ∨ h.next self = self := by
      by_contra hnot
      obtain ⟨hpair, hne⟩ := not_or.mp hnot
      exact hswaps ⟨hne, not_not.mp hpair⟩
    cases A with
    | nil => exact ⟨_, _, .advanceSingle, 0, fun _ _ => ⟨_, rfl, advance_single_holds hold⟩⟩
    | cons next A => exact ⟨_, _, .advance, 0, fun _ _ => ⟨_, rfl, advance_holds hold hpair⟩⟩
  | retreat self =>
    obtain ⟨A, G, rfl⟩ := exists_ring happlicable
    have hpair : h.prev (h.prev self) ≠ self ∨ h.prev self = self := by
      by_contra hnot
      obtain ⟨hpair, hne⟩ := not_or.mp hnot
      exact hswaps ⟨hne, not_not.mp hpair⟩
    rcases List.eq_nil_or_concat A with rfl | ⟨C, p, rfl⟩
    · exact ⟨_, _, .retreatSingle, 0, fun _ _ => ⟨_, rfl, retreat_single_holds hold⟩⟩
    · have hrotated : ring (self :: (C.concat p)) = ring (p :: self :: C) := by
        rw [List.concat_eq_append]
        exact ring_append_comm (self :: C) [p]
      rw [hrotated] at hold ⊢
      exact ⟨_, _, .retreat, 0, fun _ _ => ⟨_, rfl, retreat_holds hold hpair⟩⟩
  | ufind self cmp =>
    obtain ⟨A, G, rfl⟩ := exists_ring happlicable
    obtain ⟨hpath, hnodup, -, -⟩ := holds_ring_add.mp hold
    have hsearch : ∀ rounds, A.length + 1 ≤ rounds → ufindFrom cmp self rounds h (h.next self) = _ :=
      fun rounds hrounds => ufindFrom_eq hpath (List.nodup_cons.mp hnodup).1 hrounds
    cases hfind : A.find? fun y => cmp y = 0 with
    | none =>
      rw [hfind] at hsearch
      have hnone : ∀ x ∈ A, cmp x ≠ 0 := by simpa using hfind
      exact ⟨_, _, .ufindNone hnone, A.length + 1,
        fun rounds hrounds => ⟨_, hsearch rounds hrounds, hold⟩⟩
    | some node =>
      rw [hfind] at hsearch
      obtain ⟨hmatch, before, behind, rfl, hbefore⟩ := List.find?_eq_some_iff_append.mp hfind
      refine ⟨_, _, .ufind (fun x hx => ?_) (by simpa using hmatch), _, fun rounds hrounds =>
        ⟨_, hsearch rounds hrounds, moveToFront_holds hold⟩⟩
      simpa using hbefore x hx

/-- Three nodes in a ring. -/
def triangle : Links (Fin 3) := ⟨(· + 1), (· - 1)⟩

theorem triangle_holds : triangle.Holds (ring [0, 1, 2] + 0) :=
  holds_ring_add.mpr ⟨by decide, by decide, by simp [nodes], holds_zero _⟩

/-- Three nodes: the first one is swapped with the second. -/
theorem corresponds_triangle : (Operation.advance (0 : Fin 3)).Corresponds triangle (ring [0, 1, 2] + 0) := by
  have happlicable : (Operation.advance (0 : Fin 3)).Applicable (ring [0, 1, 2] + 0) := mem_nodes_ring
  exact (corresponds_iff triangle_holds happlicable).mpr (by decide)

/-- Two nodes in a ring. -/
def pair : Links Bool := ⟨not, not⟩

/-- **Two nodes**: the links are corrupted when one is swapped with the other. -/
theorem not_corresponds_pair : pair.Holds (ring [false, true] + 0) ∧
    (Operation.advance false).Applicable (ring [false, true] + 0) ∧
    (advance pair false).next false = false ∧ (advance pair false).prev false = true ∧
    ¬ (Operation.advance false).Corresponds pair (ring [false, true] + 0) := by
  have hold : pair.Holds (ring [false, true] + 0) :=
    holds_ring_add.mpr ⟨by decide, by decide, by simp [nodes], holds_zero _⟩
  exact ⟨hold, mem_nodes_ring, by decide, by decide, not_corresponds_of_swapsPair hold (by decide)⟩

end Lumiera.Lib.LList
