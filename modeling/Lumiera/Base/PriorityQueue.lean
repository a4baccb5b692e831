import Mathlib.Algebra.Order.Group.Multiset
import Mathlib.Data.List.MinMax

/-! # Priority queues

The interface of a priority queue with regard to a key: the element on top is one with the smallest
key. Which one of several elements with the same key comes first is left to the implementation. The
`content` is what the laws are about, it need not be part of an implementation. -/

namespace Lumiera

/-- **A priority queue** `Q` for elements ordered by a key. -/
class PriorityQueue (Q : Type*) {E : outParam Type*} (key : outParam (E → ℤ)) where
  empty : Q
  push : Q → E → Q
  /-- The element on top. -/
  top? : Q → Option E
  /-- Remove the element on top. -/
  pop : Q → Q
  content : Q → Multiset E
  content_empty : content empty = 0
  content_push : ∀ q e, content (push q e) = e ::ₘ content q
  top?_eq_none : ∀ q, top? q = none → content q = 0
  le_of_top? : ∀ q e, top? q = some e → ∀ x ∈ content q, key e ≤ key x
  content_pop : ∀ q e, top? q = some e → content q = e ::ₘ content (pop q)

namespace PriorityQueue

variable {Q E : Type*} {key : E → ℤ} [PriorityQueue Q key] {q : Q} {e : E}

/-- The number of elements. -/
def size (q : Q) : ℕ := Multiset.card (content q)

theorem mem_of_top? (h : top? q = some e) : e ∈ content q := by
  rw [content_pop q e h]
  exact Multiset.mem_cons_self _ _

theorem top?_eq_none_iff : top? q = none ↔ content q = 0 := by
  refine ⟨top?_eq_none q, fun hempty => ?_⟩
  cases htop : top? q with
  | none => rfl
  | some e =>
    have hmem := mem_of_top? htop
    rw [hempty] at hmem
    exact absurd hmem (Multiset.notMem_zero e)

theorem size_pop (h : top? q = some e) : size q = size (pop q) + 1 := by
  rw [size, size, content_pop q e h, Multiset.card_cons]

theorem content_foldl_push (es : List E) (q : Q) : content (es.foldl push q) = content q + (es : Multiset E) := by
  induction es generalizing q with
  | nil => simp
  | cons e es ih =>
    rw [List.foldl_cons, ih, content_push, ← Multiset.cons_coe, Multiset.cons_add,
      Multiset.add_cons]

end PriorityQueue

/-! ## An implementation -/

/-- The first one of the elements with smallest key. -/
def smallest {E : Type*} (key : E → ℤ) (q : List E) : Option E :=
  @List.argmin E ℤ Int.instLinearOrder.toPreorder (fun a b => Int.decLt a b) key q

/-- **An unsorted list** used as priority queue. -/
@[reducible] def PriorityQueue.ofList {E : Type*} [DecidableEq E] (key : E → ℤ) :
    PriorityQueue (List E) key where
  empty := []
  push q e := q ++ [e]
  top? q := smallest key q
  pop q := match smallest key q with
    | none => q
    | some e => q.erase e
  content q := q
  content_empty := rfl
  content_push q e := by
    rw [← Multiset.coe_add, Multiset.coe_singleton, add_comm, Multiset.singleton_add]
  top?_eq_none q h := by rw [List.argmin_eq_none.mp h]; rfl
  le_of_top? q e h x hx := List.le_of_mem_argmin hx h
  content_pop q e h := by
    have hmem : e ∈ q := List.argmin_mem h
    simp only [h]
    rw [Multiset.cons_coe]
    exact Multiset.coe_eq_coe.mpr (List.perm_cons_erase hmem)

end Lumiera
