import Mathlib.Order.WellFoundedSet

/-! # Forests listed in pre-order

Any element has children, so that a sequence of elements is the sequence of roots of a forest. Its
pre-order listing has each element in front of those below it, and these in front of its next sibling;
it is finite exactly if there is a derivation. `Preorder.append` is the reason why a stack of pending
siblings is as good as the recursion. -/

namespace Lumiera

open List

universe u

open Relation

theorem wellFounded_of_acyclic {α : Type u} {r : α → α → Prop} {s : Finset α}
    (hmem : ∀ x y, r x y → x ∈ s ∧ y ∈ s) (hacyclic : ∀ a, ¬ TransGen r a a) : WellFounded r := by
  have hstrict : IsStrictOrder α (TransGen r) :=
    { irrefl := hacyclic, trans := fun _ _ _ => TransGen.trans }
  have hwf := Set.wellFoundedOn_iff.mp (s.finite_toSet.wellFoundedOn (r := TransGen r))
  exact Subrelation.wf (fun {x y} h => ⟨.single h, (hmem x y h).1, (hmem x y h).2⟩) hwf

namespace Forest

variable {α : Type u} (children : α → List α)

/-- **The pre-order listing** of a forest with the given roots. -/
inductive Preorder : List α → List α → Prop
  | nil : Preorder [] []
  | cons {a : α} {siblings below rest : List α} : Preorder (children a) below → Preorder siblings rest →
    Preorder (a :: siblings) (a :: (below ++ rest))

/-- `IsChild p c`: the element `c` is one of the children of `p`. -/
def IsChild (p c : α) : Prop := c ∈ children p

variable {children} {a x y z : α} {xs ys zs : List α}

theorem Preorder.append (h : Preorder children xs ys) {xs' ys' : List α} (h' : Preorder children xs' ys') :
    Preorder children (xs ++ xs') (ys ++ ys') := by
  induction h with
  | nil => exact h'
  | cons hbelow _ _ ih =>
    rw [cons_append, cons_append, append_assoc]
    exact .cons hbelow ih

/-- What is listed are the roots, and whatever is below them. -/
theorem Preorder.mem_iff (h : Preorder children xs ys) : y ∈ ys ↔ ∃ x ∈ xs, ReflTransGen (IsChild children) x y := by
  induction h with
  | nil => simp
  | @cons a siblings below rest _ _ ihbelow ihrest =>
    rw [mem_cons, mem_append, ihbelow, ihrest]
    constructor
    · rintro (rfl | ⟨c, hc, hreach⟩ | ⟨x, hx, hreach⟩)
      · exact ⟨y, mem_cons_self, .refl⟩
      · exact ⟨a, mem_cons_self, .head hc hreach⟩
      · exact ⟨x, mem_cons_of_mem a hx, hreach⟩
    · rintro ⟨x, hx, hreach⟩
      rcases mem_cons.mp hx with rfl | hx
      · rcases ReflTransGen.cases_head hreach with heq | ⟨c, hc, hreach⟩
        · exact .inl heq.symm
        · exact .inr (.inl ⟨c, hc, hreach⟩)
      · exact .inr (.inr ⟨x, hx, hreach⟩)

/-- Neither of both is the other one, or below the other one. -/
def Apart (children : α → List α) (x y : α) : Prop :=
  ¬ ReflTransGen (IsChild children) x y ∧ ¬ ReflTransGen (IsChild children) y x

/-- **A tree structure**: every element is a child of at most one other, once only, and there is no cycle. -/
structure IsTree (children : α → List α) : Prop where
  parent : ∀ p q c, IsChild children p c → IsChild children q c → p = q
  nodup : ∀ p, (children p).Nodup
  acyclic : ∀ a, ¬ TransGen (IsChild children) a a

theorem IsTree.not_below_both (h : IsTree children) (hxy : Apart children x y)
    (hx : ReflTransGen (IsChild children) x z) : ¬ ReflTransGen (IsChild children) y z := by
  intro hy
  have hunique : Relator.RightUnique (Function.swap (IsChild children)) :=
    fun c p q hp hq => h.parent p q c hp hq
  rcases (reflTransGen_swap.mpr hx).total_of_right_unique hunique (reflTransGen_swap.mpr hy) with hup | hup
  · exact hxy.2 (reflTransGen_swap.mp hup)
  · exact hxy.1 (reflTransGen_swap.mp hup)

theorem IsTree.children_apart (h : IsTree children) (a : α) : (children a).Pairwise (Apart children) := by
  have hnot : ∀ {c d : α}, IsChild children a c → IsChild children a d → c ≠ d →
      ¬ ReflTransGen (IsChild children) c d := by
    intro c d hc hd hne hreach
    obtain ⟨p, hcp, hpd⟩ := (ReflTransGen.cases_tail hreach).resolve_left fun heq => hne heq.symm
    rw [h.parent p a d hpd hd] at hcp
    exact h.acyclic a (.head' hc hcp)
  refine (List.Pairwise.and_mem.mp (h.nodup a)).imp ?_
  rintro c d ⟨hc, hd, hne⟩
  exact ⟨hnot hc hd hne, hnot hd hc hne.symm⟩

/-- Each element is listed once, when the roots are apart from each other. -/
theorem Preorder.nodup (h : Preorder children xs ys) (htree : IsTree children)
    (hroots : xs.Pairwise (Apart children)) : ys.Nodup := by
  induction h with
  | nil => exact nodup_nil
  | @cons a siblings below rest hbelow hrest ihbelow ihrest =>
    obtain ⟨hfirst, hothers⟩ := pairwise_cons.mp hroots
    rw [nodup_cons, mem_append, nodup_append']
    refine ⟨?_, ihbelow (htree.children_apart a), ihrest hothers, ?_⟩
    · rintro (hmem | hmem)
      · obtain ⟨c, hc, hreach⟩ := hbelow.mem_iff.mp hmem
        exact htree.acyclic a (.head' hc hreach)
      · obtain ⟨x, hx, hreach⟩ := hrest.mem_iff.mp hmem
        exact (hfirst x hx).2 hreach
    · intro z hz hz'
      obtain ⟨c, hc, hreach⟩ := hbelow.mem_iff.mp hz
      obtain ⟨x, hx, hreach'⟩ := hrest.mem_iff.mp hz'
      exact htree.not_below_both (hfirst x hx) (.head hc hreach) hreach'

theorem IsTree.wellFounded (h : IsTree children) {s : Finset α}
    (hmem : ∀ p c, IsChild children p c → p ∈ s ∧ c ∈ s) : WellFounded fun c p => IsChild children p c := by
  refine wellFounded_of_acyclic (fun c p hchild => ⟨(hmem p c hchild).2, (hmem p c hchild).1⟩) ?_
  intro a hcycle
  exact h.acyclic a (transGen_swap.mp hcycle)

end Forest

end Lumiera
