import Mathlib.Data.Tree.Basic
import Mathlib.Data.List.Nodup
import Mathlib.Data.List.Perm.Basic
import Mathlib.Algebra.Order.Group.Unbundled.Int
import Mathlib.Data.List.Pairwise

/-! # Binary trees made of links

A node has a link to the left and one to the right, and there is a link to the root. What the links
point to is the **memory**; it **holds** a binary tree when following the links gives that tree. A
position in a tree is described by the frames around it, as in a zipper: the tree is held just when
the frames are held and the link at the position holds the subtree there (`holds_plug`). So a change
of the tree is local: only the links in the subtree, and the one link which leads to it, are touched
(`HoldsFrames.congr`). -/

namespace Lumiera

/-- Left or right. -/
inductive Side
  | left
  | right
  deriving DecidableEq, Repr

/-- The other side. -/
def Side.flip : Side → Side
  | left => right
  | right => left

@[simp] theorem Side.flip_flip (d : Side) : d.flip.flip = d := by cases d <;> rfl

@[simp] theorem Side.flip_ne (d : Side) : d.flip ≠ d := by cases d <;> decide

@[simp] theorem Side.ne_flip (d : Side) : d ≠ d.flip := by cases d <;> decide

/-- A place which may point to a node. -/
inductive Link (ι : Type*)
  | root
  | child (n : ι) (d : Side)
  deriving DecidableEq, Repr

/-- What the links point to. -/
abbrev LinkMemory (ι : Type*) := Link ι → Option ι

/-- One step of the way from the root to a position: the node, the side which was taken and the
other subtree. -/
structure Frame (ι : Type*) where
  side : Side
  node : ι
  sibling : BinaryTree ι

namespace LinkedTree

open List

variable {ι : Type*} {m m' : LinkMemory ι} {o : Option ι} {t s : BinaryTree ι} {base : Link ι} {f : Frame ι}
  {fs : List (Frame ι)} {n : ι} {d : Side}

/-! ## Trees in order -/

/-- The nodes, from left to right. -/
def inorder : BinaryTree ι → List ι
  | .nil => []
  | .node n l r => inorder l ++ n :: inorder r

/-- The tree with these subtrees at the given side and at the other side. -/
def join (d : Side) (n : ι) (near far : BinaryTree ι) : BinaryTree ι :=
  match d with
  | .left => .node n near far
  | .right => .node n far near

/-- The subtree put in place. -/
def attach (f : Frame ι) (s : BinaryTree ι) : BinaryTree ι := join f.side f.node s f.sibling

/-- The tree around a position, with this subtree there. -/
def plug (s : BinaryTree ι) : List (Frame ι) → BinaryTree ι
  | [] => s
  | f :: fs => plug (attach f s) fs

/-- The nodes before a position. -/
def before : List (Frame ι) → List ι
  | [] => []
  | ⟨.left, _, _⟩ :: fs => before fs
  | ⟨.right, n, sibling⟩ :: fs => before fs ++ (inorder sibling ++ [n])

/-- The nodes after a position. -/
def after : List (Frame ι) → List ι
  | [] => []
  | ⟨.left, n, sibling⟩ :: fs => (n :: inorder sibling) ++ after fs
  | ⟨.right, _, _⟩ :: fs => after fs

/-- In order, there are the nodes before the position, those in the subtree and those after it. -/
theorem inorder_plug (s : BinaryTree ι) (fs : List (Frame ι)) :
    inorder (plug s fs) = before fs ++ inorder s ++ after fs := by
  induction fs generalizing s with
  | nil => simp [plug, before, after]
  | cons f fs ih =>
    obtain ⟨d, n, sibling⟩ := f
    rw [plug, ih]
    cases d <;> simp [attach, join, inorder, before, after]

/-- All the nodes around a position. -/
def around (fs : List (Frame ι)) : List ι := before fs ++ after fs

theorem around_cons_perm (f : Frame ι) (fs : List (Frame ι)) :
    (around (f :: fs)).Perm (f.node :: (inorder f.sibling ++ around fs)) := by
  obtain ⟨d, n, sibling⟩ := f
  cases d with
  | left =>
    simp only [around, after]
    rw [← append_assoc, ← append_assoc]
    exact perm_append_comm.append_right _
  | right =>
    simp only [around]
    rw [← cons_append, ← append_assoc (n :: inorder sibling)]
    have hnode : (inorder sibling ++ [n]).Perm (n :: inorder sibling) := perm_append_singleton n _
    exact ((perm_append_comm).trans (hnode.append_right _)).append_right _

theorem inorder_plug_perm (s : BinaryTree ι) (fs : List (Frame ι)) :
    (inorder (plug s fs)).Perm (inorder s ++ around fs) := by
  rw [inorder_plug, around, ← append_assoc]
  exact perm_append_comm.append_right _

theorem mem_around_cons {x : ι} : x ∈ around (f :: fs) ↔ x = f.node ∨ x ∈ inorder f.sibling ∨ x ∈ around fs := by
  rw [(around_cons_perm f fs).mem_iff, mem_cons, mem_append]

theorem mem_plug {x : ι} : x ∈ inorder (plug s fs) ↔ x ∈ inorder s ∨ x ∈ around fs := by
  rw [(inorder_plug_perm s fs).mem_iff, mem_append]

theorem inorder_join (d : Side) (n : ι) (near far : BinaryTree ι) :
    inorder (join d n near far) = match d with
      | .left => inorder near ++ n :: inorder far
      | .right => inorder far ++ n :: inorder near := by
  cases d <;> rfl

theorem exists_join (d : Side) (n : ι) (l r : BinaryTree ι) :
    ∃ near far, BinaryTree.node n l r = join d n near far := by
  cases d with
  | left => exact ⟨l, r, rfl⟩
  | right => exact ⟨r, l, rfl⟩

/-! ## Memory -/

/-- **The memory holds a tree**: the pointer leads to its root, and the links from there hold the subtrees. -/
def Holds (m : LinkMemory ι) : Option ι → BinaryTree ι → Prop
  | o, .nil => o = none
  | o, .node n l r => o = some n ∧ Holds m (m (.child n .left)) l ∧ Holds m (m (.child n .right)) r

theorem Holds.unique {t' : BinaryTree ι} (h : Holds m o t) (h' : Holds m o t') : t = t' := by
  induction t generalizing o t' with
  | nil =>
    cases t' with
    | nil => rfl
    | node n l r => exact absurd (h.symm.trans h'.1) nofun
  | node n l r ihl ihr =>
    obtain ⟨ho, hl, hr⟩ := h
    cases t' with
    | nil => exact absurd (ho.symm.trans h') nofun
    | node n' l' r' =>
      obtain ⟨ho', hl', hr'⟩ := h'
      obtain rfl := Option.some.inj (ho.symm.trans ho')
      rw [ihl hl hl', ihr hr hr']

/-- The link which leads to a position. -/
def linkAt (base : Link ι) : List (Frame ι) → Link ι
  | [] => base
  | f :: _ => .child f.node f.side

/-- **The memory holds the frames around a position**: the link to each of the nodes, and the other
subtree. -/
def HoldsFrames (m : LinkMemory ι) (base : Link ι) : List (Frame ι) → Prop
  | [] => True
  | f :: fs => m (linkAt base fs) = some f.node ∧ Holds m (m (.child f.node f.side.flip)) f.sibling ∧
      HoldsFrames m base fs

theorem holds_join {near far : BinaryTree ι} :
    Holds m o (join d n near far) ↔
      o = some n ∧ Holds m (m (.child n d)) near ∧ Holds m (m (.child n d.flip)) far := by
  cases d with
  | left => rfl
  | right =>
    rw [join, Holds]
    tauto

/-- A tree is held when the frames around a position and the subtree there are. -/
theorem holds_plug : Holds m (m base) (plug s fs) ↔ HoldsFrames m base fs ∧ Holds m (m (linkAt base fs)) s := by
  induction fs generalizing s with
  | nil => simp [plug, HoldsFrames, linkAt]
  | cons f fs ih =>
    rw [plug, ih, attach, holds_join, HoldsFrames]
    tauto

theorem Holds.congr (h : Holds m o t) (hsame : ∀ x ∈ inorder t, ∀ d, m' (.child x d) = m (.child x d)) :
    Holds m' o t := by
  induction t generalizing o with
  | nil => exact h
  | node n l r ihl ihr =>
    obtain ⟨ho, hl, hr⟩ := h
    rw [Holds, hsame n (by simp [inorder]), hsame n (by simp [inorder])]
    refine ⟨ho, ihl hl fun x hx => hsame x ?_, ihr hr fun x hx => hsame x ?_⟩
    · simp [inorder, hx]
    · simp [inorder, hx]

theorem HoldsFrames.congr_all (h : HoldsFrames m base fs) (hbase : m' base = m base)
    (hsame : ∀ x ∈ around fs, ∀ d, m' (.child x d) = m (.child x d)) : HoldsFrames m' base fs := by
  induction fs with
  | nil => trivial
  | cons f fs ih =>
    obtain ⟨hlink, hsibling, hrest⟩ := h
    have hlink' : m' (linkAt base fs) = m (linkAt base fs) := by
      cases fs with
      | nil => exact hbase
      | cons f' fs => exact hsame _ (by simp [mem_around_cons]) _
    rw [HoldsFrames, hlink', hsame f.node (by simp [mem_around_cons])]
    refine ⟨hlink, hsibling.congr fun x hx => hsame x ?_, ih hrest fun x hx => hsame x ?_⟩
    · simp [mem_around_cons, hx]
    · simp [mem_around_cons, hx]

/-- The link to the position may change, as long as no other link around the position does. -/
theorem HoldsFrames.congr (h : HoldsFrames m base fs) (hnodup : (around fs).Nodup)
    (hbase : fs ≠ [] → m' base = m base)
    (hsame : ∀ x ∈ around fs, ∀ d, .child x d ≠ linkAt base fs → m' (.child x d) = m (.child x d)) :
    HoldsFrames m' base fs := by
  cases fs with
  | nil => trivial
  | cons f fs =>
    obtain ⟨hlink, hsibling, hrest⟩ := h
    rw [(around_cons_perm f fs).nodup_iff, nodup_cons, mem_append, not_or] at hnodup
    obtain ⟨⟨hnotSibling, hnotRest⟩, -⟩ := hnodup
    -- none of the other links belongs to this node
    have hother : ∀ x ∈ around (f :: fs), x ≠ f.node → ∀ d, m' (.child x d) = m (.child x d) := by
      intro x hx hne d
      apply hsame x hx
      exact fun heq => hne (Link.child.inj heq).1
    have hmem : ∀ x ∈ around fs, x ∈ around (f :: fs) ∧ x ≠ f.node := by
      intro x hx
      exact ⟨mem_around_cons.mpr (Or.inr (Or.inr hx)), fun heq => hnotRest (heq ▸ hx)⟩
    have hlink' : m' (linkAt base fs) = m (linkAt base fs) := by
      cases fs with
      | nil => exact hbase (cons_ne_nil _ _)
      | cons f' fs =>
        obtain ⟨hx, hne⟩ := hmem f'.node (mem_around_cons.mpr (Or.inl rfl))
        exact hother _ hx hne _
    have hflip : m' (.child f.node f.side.flip) = m (.child f.node f.side.flip) := by
      apply hsame _ (mem_around_cons.mpr (Or.inl rfl))
      simp [linkAt]
    rw [HoldsFrames, hlink', hflip]
    refine ⟨hlink, hsibling.congr fun x hx d => ?_,
      hrest.congr_all (hbase (cons_ne_nil _ _)) fun x hx d => ?_⟩
    · exact hother x (mem_around_cons.mpr (Or.inr (Or.inl hx))) (fun heq => hnotSibling (heq ▸ hx)) d
    · obtain ⟨hx, hne⟩ := hmem x hx
      exact hother x hx hne d

/-! ## Changes at a position -/

section Change

variable [DecidableEq ι] {v : Option ι}

/-- **The frames are kept** when only the link to the position is set, and other links around it
stay the same. -/
theorem HoldsFrames.update (h : HoldsFrames m base fs) (hnodup : (around fs).Nodup)
    (hforeign : ∀ x ∈ around fs, ∀ d, base ≠ .child x d) (hbase : m' base = m base)
    (hsame : ∀ x ∈ around fs, ∀ d, m' (.child x d) = m (.child x d)) :
    HoldsFrames (Function.update m' (linkAt base fs) v) base fs := by
  apply h.congr hnodup
  · intro hne
    cases fs with
    | nil => exact absurd rfl hne
    | cons f fs =>
      rw [linkAt, Function.update_of_ne (hforeign f.node (mem_around_cons.mpr (Or.inl rfl)) f.side), hbase]
  · intro x hx d hother
    rw [Function.update_of_ne hother, hsame x hx d]

/-- A tree elsewhere is kept. -/
theorem Holds.update {L : Link ι} (h : Holds m o t) (hsame : ∀ x ∈ inorder t, ∀ d, m' (.child x d) = m (.child x d))
    (hother : ∀ x ∈ inorder t, ∀ d, .child x d ≠ L) : Holds (Function.update m' L v) o t := by
  apply h.congr
  intro x hx d
  rw [Function.update_of_ne (hother x hx d), hsame x hx d]

end Change

/-! ## Positions -/

theorem exists_frames (hn : n ∈ inorder t) : ∃ fs l r, t = plug (.node n l r) fs := by
  suffices h : ∀ t (fs : List (Frame ι)), n ∈ inorder t → ∃ fs' l r, plug t fs = plug (.node n l r) fs' from
    h t [] hn
  intro t
  induction t with
  | nil => exact fun fs hn => absurd hn not_mem_nil
  | node x l r ihl ihr =>
    intro fs hn
    rw [inorder, mem_append, mem_cons] at hn
    rcases hn with hn | rfl | hn
    · exact ihl (⟨.left, x, r⟩ :: fs) hn
    · exact ⟨fs, l, r, rfl⟩
    · exact ihr (⟨.right, x, l⟩ :: fs) hn

/-- A link is **anchored** when it is the one to the root or belongs to one of these nodes. -/
def Anchored (base : Link ι) (xs : List ι) (L : Link ι) : Prop := L = base ∨ ∃ x ∈ xs, ∃ d, L = .child x d

/-- An anchored link leads to a position. -/
theorem exists_position {L : Link ι} (h : Anchored base (inorder t) L) :
    ∃ fs s, t = plug s fs ∧ linkAt base fs = L := by
  rcases h with rfl | ⟨x, hx, d, rfl⟩
  · exact ⟨[], t, rfl, rfl⟩
  · obtain ⟨fs, l, r, rfl⟩ := exists_frames hx
    obtain ⟨near, far, hjoin⟩ := exists_join d x l r
    exact ⟨⟨d, x, far⟩ :: fs, near, by rw [hjoin]; rfl, rfl⟩

theorem anchored_linkAt (base : Link ι) (fs : List (Frame ι)) : Anchored base (around fs) (linkAt base fs) := by
  cases fs with
  | nil => exact Or.inl rfl
  | cons f fs => exact Or.inr ⟨f.node, mem_around_cons.mpr (Or.inl rfl), f.side, rfl⟩

theorem child_ne_linkAt {x : ι} (hx : x ∉ around fs) (hbase : base ≠ .child x d) : .child x d ≠ linkAt base fs := by
  intro heq
  rcases anchored_linkAt base fs with hroot | ⟨y, hy, e, hlink⟩
  · exact hbase (by rw [← hroot, ← heq])
  · rw [← heq] at hlink
    exact hx ((Link.child.inj hlink).1 ▸ hy)

theorem Anchored.mono {xs ys : List ι} {L : Link ι} (h : Anchored base xs L) (hsub : ∀ x ∈ xs, x ∈ ys) :
    Anchored base ys L := by
  rcases h with h | ⟨x, hx, hd⟩
  · exact Or.inl h
  · exact Or.inr ⟨x, hsub x hx, hd⟩

theorem Holds.exists_node (h : Holds m (some n) t) : ∃ l r, t = .node n l r := by
  cases t with
  | nil => exact absurd h (by simp [Holds])
  | node x l r =>
    obtain ⟨hx, -, -⟩ := h
    exact ⟨l, r, by rw [Option.some.inj hx]⟩

theorem Holds.eq_nil (h : Holds m none t) : t = .nil := by
  cases t with
  | nil => rfl
  | node x l r => exact absurd h.1 (by simp)

end LinkedTree

/-! ## Search trees

A comparison function gives a negative number, zero or a positive number. A tree is a **search
tree** when the keys of its nodes ascend from left to right. The search for a key leads to a
position where all nodes before are smaller and all nodes after are greater (`Between`); this is
what one step down the tree keeps. -/

namespace SearchTree

open LinkedTree

variable {ι κ : Type*} {cmp : κ → κ → ℤ} {key : ι → κ} {l : List ι} {fs : List (Frame ι)}
  {a b c k : κ} {x y : ι}

/-- **The comparison is a total order**, where the keys are equal when the comparison gives zero. -/
structure TotalOrder (cmp : κ → κ → ℤ) : Prop where
  swap : ∀ a b, cmp a b < 0 ↔ 0 < cmp b a
  trans : ∀ a b c, cmp a b ≤ 0 → cmp b c ≤ 0 → cmp a c ≤ 0

theorem TotalOrder.refl (h : TotalOrder cmp) (a : κ) : cmp a a = 0 := by
  have := h.swap a a
  omega

theorem TotalOrder.eq_comm (h : TotalOrder cmp) : cmp a b = 0 ↔ cmp b a = 0 := by
  have := h.swap a b
  have := h.swap b a
  omega

theorem TotalOrder.lt_of_lt_of_le (h : TotalOrder cmp) (hab : cmp a b < 0) (hbc : cmp b c ≤ 0) : cmp a c < 0 := by
  have hac := h.trans a b c (by omega) hbc
  by_contra hne
  have hca : cmp c a = 0 := h.eq_comm.mp (by omega)
  have hba := h.trans b c a hbc (by omega)
  have := (h.swap a b).mp hab
  omega

theorem TotalOrder.lt_of_le_of_lt (h : TotalOrder cmp) (hab : cmp a b ≤ 0) (hbc : cmp b c < 0) : cmp a c < 0 := by
  have hac := h.trans a b c hab (by omega)
  by_contra hne
  have hca : cmp c a = 0 := h.eq_comm.mp (by omega)
  have hcb := h.trans c a b (by omega) hab
  have := (h.swap b c).mp hbc
  omega

/-- Comparing by one property first, and by another one when there is no difference. -/
theorem TotalOrder.lexicographic {α β : Type*} {cmp₁ : α → α → ℤ} {cmp₂ : β → β → ℤ} (h₁ : TotalOrder cmp₁)
    (h₂ : TotalOrder cmp₂) (f : κ → α) (g : κ → β) :
    TotalOrder fun a b =>
      if cmp₁ (f a) (f b) < 0 then -1 else if 0 < cmp₁ (f a) (f b) then 1 else cmp₂ (g a) (g b) where
  swap a b := by
    have := h₁.swap (f a) (f b)
    have := h₁.swap (f b) (f a)
    have := h₂.swap (g a) (g b)
    split_ifs <;> omega
  trans a b c := by
    have := h₁.trans (f a) (f b) (f c)
    have := h₁.trans (f b) (f c) (f a)
    have := h₁.trans (f c) (f a) (f b)
    have := h₁.swap (f a) (f c)
    have := h₁.swap (f b) (f c)
    have := h₁.swap (f a) (f b)
    have := h₂.trans (g a) (g b) (g c)
    split_ifs <;> omega

/-- **The keys ascend.** -/
def Ascending (cmp : κ → κ → ℤ) (key : ι → κ) (l : List ι) : Prop :=
    l.Pairwise fun x y => cmp (key x) (key y) < 0

theorem Ascending.nodup (hcmp : TotalOrder cmp) (h : Ascending cmp key l) : l.Nodup :=
  h.imp fun hlt heq => by
    rw [heq, hcmp.refl] at hlt
    exact lt_irrefl 0 hlt

theorem Ascending.unique (hcmp : TotalOrder cmp) (h : Ascending cmp key l) (hx : x ∈ l) (hy : y ∈ l)
    (hkx : cmp k (key x) = 0) (hky : cmp k (key y) = 0) : x = y := by
  have hxk := hcmp.eq_comm.mp hkx
  have hyk := hcmp.eq_comm.mp hky
  have hxy : cmp (key x) (key y) = 0 := by
    have hle := hcmp.trans _ _ _ hxk.le hky.le
    have hge := hcmp.trans _ _ _ hyk.le hkx.le
    have := hcmp.swap (key x) (key y)
    omega
  have hdiffer : l.Pairwise fun x y => cmp (key x) (key y) ≠ 0 := h.imp fun hlt => by omega
  have hsymmetric : Std.Symm fun x y => cmp (key x) (key y) ≠ 0 :=
      ⟨fun x y hne heq => hne (hcmp.eq_comm.mp heq)⟩
  by_contra hne
  exact hdiffer.forall hx hy hne hxy

/-! ## The way down -/

/-- **The key belongs at this position**: what is before is smaller, and what is after is greater. -/
def Between (cmp : κ → κ → ℤ) (key : ι → κ) (k : κ) (fs : List (Frame ι)) : Prop :=
  (∀ x ∈ before fs, cmp (key x) k < 0) ∧ ∀ x ∈ after fs, cmp k (key x) < 0

theorem between_nil : Between cmp key k [] := ⟨nofun, nofun⟩

theorem ascending_of_plug {s : BinaryTree ι} (h : Ascending cmp key (inorder (plug s fs))) :
    Ascending cmp key (inorder s) := by
  rw [inorder_plug, Ascending, List.pairwise_append, List.pairwise_append] at h
  exact h.1.2.1

/-- To the left, where the key is smaller than the one of the node. -/
theorem Between.left (hcmp : TotalOrder cmp) {sl sr : BinaryTree ι}
    (hasc : Ascending cmp key (inorder (plug (.node x sl sr) fs))) (h : Between cmp key k fs)
    (hlt : cmp k (key x) < 0) : Between cmp key k (⟨.left, x, sr⟩ :: fs) := by
  have hsub := ascending_of_plug hasc
  rw [inorder, Ascending, List.pairwise_append, List.pairwise_cons] at hsub
  refine ⟨h.1, fun y hy => ?_⟩
  rw [after, List.mem_append, List.mem_cons] at hy
  rcases hy with (rfl | hy) | hy
  · exact hlt
  · exact hcmp.lt_of_lt_of_le hlt (hsub.2.1.1 y hy).le
  · exact h.2 y hy

/-- To the right, where the key is greater than the one of the node. -/
theorem Between.right (hcmp : TotalOrder cmp) {sl sr : BinaryTree ι}
    (hasc : Ascending cmp key (inorder (plug (.node x sl sr) fs))) (h : Between cmp key k fs)
    (hgt : 0 < cmp k (key x)) : Between cmp key k (⟨.right, x, sl⟩ :: fs) := by
  have hsub := ascending_of_plug hasc
  rw [inorder, Ascending, List.pairwise_append] at hsub
  have hlt := (hcmp.swap (key x) k).mpr hgt
  refine ⟨fun y hy => ?_, h.2⟩
  rw [before, List.mem_append, List.mem_append, List.mem_singleton] at hy
  rcases hy with hy | hy | rfl
  · exact h.1 y hy
  · exact hcmp.lt_of_le_of_lt (hsub.2.2 y hy x List.mem_cons_self).le hlt
  · exact hlt

/-- At an empty position, no node has the key. -/
theorem Between.ne (hcmp : TotalOrder cmp) (h : Between cmp key k fs) (hx : x ∈ inorder (plug .nil fs)) :
    cmp k (key x) ≠ 0 := by
  rw [inorder_plug, inorder, List.append_nil, List.mem_append] at hx
  rcases hx with hx | hx
  · have := (hcmp.swap (key x) k).mp (h.1 x hx)
    omega
  · have := h.2 x hx
    omega

/-- A node put where its key belongs keeps the order. -/
theorem Between.ascending (hcmp : TotalOrder cmp) (h : Between cmp key (key x) fs)
    (hasc : Ascending cmp key (inorder (plug .nil fs))) :
    Ascending cmp key (inorder (plug (.node x .nil .nil) fs)) := by
  rw [inorder_plug, inorder, List.append_nil, Ascending, List.pairwise_append] at hasc
  obtain ⟨hbefore, hafter, -⟩ := hasc
  rw [inorder_plug, inorder, inorder, List.nil_append, List.append_assoc, List.singleton_append, Ascending,
    List.pairwise_append, List.pairwise_cons]
  refine ⟨hbefore, ⟨h.2, hafter⟩, fun y hy z hz => ?_⟩
  rw [List.mem_cons] at hz
  rcases hz with rfl | hz
  · exact h.1 y hy
  · exact hcmp.lt_of_lt_of_le (h.1 y hy) (h.2 z hz).le

end SearchTree

end Lumiera
