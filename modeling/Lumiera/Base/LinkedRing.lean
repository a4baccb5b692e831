import Mathlib.Data.List.Cycle

/-! # Doubly linked rings

Each node has a link to the next and to the previous node. A **ring** is a cyclic sequence of nodes
where these links are mutually inverse, and a **family** of rings has each node at most once. The
one operation needed on rings is to **exchange** the successors of two nodes (`Links.exchange`): it
joins the rings when the nodes are in different ones (`Holds.join`), and it cuts the ring apart when
they are in the same one (`Holds.cut`). Whatever a program does to such rings can be composed from
exchanges, and then needs no treatment of neighbours which coincide in short rings. -/

namespace Lumiera

open List

universe u

/-- The links of all nodes. -/
@[ext] structure Links (ι : Type u) where
  /-- The node after the given one. -/
  next : ι → ι
  /-- The node before the given one. -/
  prev : ι → ι

namespace Links

variable {ι : Type u}

/-- Two nodes are **neighbours** when each one has a link to the other. -/
def Edge (h : Links ι) (x y : ι) : Prop := h.next x = y ∧ h.prev y = x

/-- A **path** leads from one node through the given nodes to another one. -/
def Path (h : Links ι) (x : ι) : List ι → ι → Prop
  | [], z => h.Edge x z
  | y :: ys, z => h.Edge x y ∧ h.Path y ys z

instance [DecidableEq ι] (h : Links ι) (x y : ι) : Decidable (h.Edge x y) :=
  inferInstanceAs (Decidable (_ ∧ _))

instance decidablePath [DecidableEq ι] (h : Links ι) :
    (x : ι) → (A : List ι) → (z : ι) → Decidable (h.Path x A z)
  | x, [], z => inferInstanceAs (Decidable (h.Edge x z))
  | x, y :: ys, z =>
    have := decidablePath h y ys z
    inferInstanceAs (Decidable (h.Edge x y ∧ h.Path y ys z))

/-- **The successors of two nodes are exchanged.** -/
def exchange [DecidableEq ι] (h : Links ι) (a b : ι) : Links ι where
  next x := if x = a then h.next b else if x = b then h.next a else h.next x
  prev x := if x = h.next b then a else if x = h.next a then b else h.prev x

variable {h : Links ι} {a b m x y z : ι} {A B C : List ι}

/-! ## Paths -/

@[simp] theorem path_nil : h.Path x [] z ↔ h.Edge x z := Iff.rfl

@[simp] theorem path_cons : h.Path x (y :: A) z ↔ h.Edge x y ∧ h.Path y A z := Iff.rfl

theorem path_append : h.Path x (A ++ m :: B) z ↔ h.Path x A m ∧ h.Path m B z := by
  induction A generalizing x with
  | nil => exact Iff.rfl
  | cons y A ih => rw [cons_append, path_cons, path_cons, ih, and_assoc]

theorem path_iff_isChain : h.Path x A z ↔ List.IsChain h.Edge (x :: (A ++ [z])) := by
  induction A generalizing x with
  | nil => simp
  | cons y A ih => rw [path_cons, ih, cons_append, isChain_cons_cons]

theorem chain_cons_iff : Cycle.Chain h.Edge (↑(x :: A) : Cycle ι) ↔ h.Path x A x := by
  rw [Cycle.chain_coe_cons, path_iff_isChain]

theorem Path.edge_next (hpath : h.Path x A z) : h.Edge x (h.next x) := by
  cases A with
  | nil => exact ⟨rfl, by rw [hpath.1]; exact hpath.2⟩
  | cons y A => exact ⟨rfl, by rw [hpath.1.1]; exact hpath.1.2⟩

theorem Path.edge_prev (hpath : h.Path x A z) : h.Edge (h.prev z) z := by
  induction A generalizing x with
  | nil => exact ⟨by rw [hpath.2]; exact hpath.1, rfl⟩
  | cons y A ih => exact ih hpath.2

theorem Path.congr {h' : Links ι} (hnext : ∀ y ∈ x :: A, h'.next y = h.next y)
    (hprev : ∀ y ∈ A ++ [z], h'.prev y = h.prev y) (hpath : h.Path x A z) : h'.Path x A z := by
  induction A generalizing x with
  | nil =>
    obtain ⟨hx, hz⟩ := hpath
    exact ⟨(hnext x mem_cons_self).trans hx, (hprev z mem_cons_self).trans hz⟩
  | cons y A ih =>
    obtain ⟨⟨hx, hy⟩, hpath⟩ := hpath
    refine ⟨⟨(hnext x mem_cons_self).trans hx, (hprev y mem_cons_self).trans hy⟩, ?_⟩
    exact ih (fun w hw => hnext w (mem_cons_of_mem x hw)) (fun w hw => hprev w (mem_cons_of_mem y hw)) hpath

/-! ## Exchanging successors -/

section Exchange

variable [DecidableEq ι]

theorem exchange_self (ha : h.Edge a (h.next a)) : h.exchange a a = h := by
  ext x
  · simp only [exchange]
    split_ifs with hx
    · rw [hx]
    · rfl
  · simp only [exchange]
    split_ifs with hx
    · rw [hx, ha.2]
    · rfl

theorem Edge.exchange (ha : h.Edge a (h.next a)) (hb : h.Edge b (h.next b)) (hxa : x ≠ a) (hxb : x ≠ b)
    (hedge : h.Edge x y) : (h.exchange a b).Edge x y := by
  obtain ⟨rfl, hprev⟩ := hedge
  have hnea : h.next x ≠ h.next a := fun heq => hxa (by rw [← hprev, heq, ha.2])
  have hneb : h.next x ≠ h.next b := fun heq => hxb (by rw [← hprev, heq, hb.2])
  exact ⟨by simp only [Links.exchange, if_neg hxa, if_neg hxb],
    by simp only [Links.exchange, if_neg hnea, if_neg hneb, hprev]⟩

theorem Path.exchange (ha : h.Edge a (h.next a)) (hb : h.Edge b (h.next b)) (hxa : x ≠ a) (hxb : x ≠ b)
    (hA : ∀ y ∈ A, y ≠ a ∧ y ≠ b) (hpath : h.Path x A z) : (h.exchange a b).Path x A z := by
  induction A generalizing x with
  | nil => exact Edge.exchange ha hb hxa hxb hpath
  | cons y A ih =>
    obtain ⟨hy, hA⟩ := forall_mem_cons.mp hA
    exact ⟨Edge.exchange ha hb hxa hxb hpath.1, ih hy.1 hy.2 hA hpath.2⟩

theorem Path.exchange_left (ha : h.Edge a (h.next a)) (hA : ∀ y ∈ A, y ≠ a ∧ y ≠ b)
    (hpath : h.Path b A z) : (h.exchange a b).Path a A z := by
  have hfirst : ∀ w, h.Edge b w → (h.exchange a b).Edge a w := by
    rintro w ⟨rfl, -⟩
    exact ⟨by simp [Links.exchange], by simp [Links.exchange]⟩
  cases A with
  | nil => exact hfirst z hpath
  | cons y A =>
    obtain ⟨hy, hA⟩ := forall_mem_cons.mp hA
    exact ⟨hfirst y hpath.1, hpath.2.exchange ha hpath.edge_next hy.1 hy.2 hA⟩

theorem Path.exchange_right (hab : a ≠ b) (hb : h.Edge b (h.next b)) (hA : ∀ y ∈ A, y ≠ a ∧ y ≠ b)
    (hpath : h.Path a A z) : (h.exchange a b).Path b A z := by
  have ha := hpath.edge_next
  have hne : h.next a ≠ h.next b := fun heq => hab (by rw [← ha.2, heq, hb.2])
  have hfirst : ∀ w, h.Edge a w → (h.exchange a b).Edge b w := by
    rintro w ⟨rfl, -⟩
    exact ⟨by simp [Links.exchange, hab.symm], by simp [Links.exchange, hne]⟩
  cases A with
  | nil => exact hfirst z hpath
  | cons y A =>
    obtain ⟨hy, hA⟩ := forall_mem_cons.mp hA
    exact ⟨hfirst y hpath.1, hpath.2.exchange ha hb hy.1 hy.2 hA⟩

end Exchange

/-! ## Families of rings -/

/-- The ring through the given nodes; there is none without any nodes. -/
def ring : List ι → Multiset (Cycle ι)
  | [] => 0
  | x :: A => {(↑(x :: A) : Cycle ι)}

/-- All nodes of a family of rings. -/
def nodes (family : Multiset (Cycle ι)) : Multiset ι := family.bind Cycle.toMultiset

/-- **A family of disjoint rings**: each ring has mutually inverse links, and no node is in two places. -/
structure Holds (h : Links ι) (family : Multiset (Cycle ι)) : Prop where
  nonempty : ∀ c ∈ family, c ≠ Cycle.nil
  linked : ∀ c ∈ family, c.Chain h.Edge
  disjoint : (nodes family).Nodup

@[simp] theorem nodes_add (F G : Multiset (Cycle ι)) : nodes (F + G) = nodes F + nodes G :=
  Multiset.add_bind ..

@[simp] theorem nodes_ring (A : List ι) : nodes (ring A) = ↑A := by
  cases A with
  | nil => rfl
  | cons x A => simp [nodes, ring]

theorem ring_append_comm (A B : List ι) : ring (A ++ B) = ring (B ++ A) := by
  cases A with
  | nil => rw [nil_append, append_nil]
  | cons x A =>
    cases B with
    | nil => rw [nil_append, append_nil]
    | cons y B =>
      have hrotated : (↑(x :: A ++ y :: B) : Cycle ι) = ↑(y :: B ++ x :: A) :=
        Cycle.coe_eq_coe.mpr isRotated_append
      exact congrArg (fun c => ({c} : Multiset (Cycle ι))) hrotated

theorem singleton_eq_ring {l : List ι} (hl : l ≠ []) : ({(↑l : Cycle ι)} : Multiset (Cycle ι)) = ring l := by
  cases l with
  | nil => exact absurd rfl hl
  | cons x l => rfl

theorem exists_ring {family : Multiset (Cycle ι)} (hx : x ∈ nodes family) : ∃ A F, family = ring (x :: A) + F := by
  obtain ⟨c, hc, hmem⟩ := Multiset.mem_bind.mp hx
  obtain ⟨F, rfl⟩ := Multiset.exists_cons_of_mem hc
  obtain ⟨l, rfl⟩ : ∃ l : List ι, ↑l = c := Quot.exists_rep c
  obtain ⟨B, A, rfl⟩ := append_of_mem (Multiset.mem_coe.mp hmem)
  refine ⟨A ++ B, F, ?_⟩
  rw [← Multiset.singleton_add, singleton_eq_ring
    (append_ne_nil_of_right_ne_nil B (cons_ne_nil x A)),
    ring_append_comm B, cons_append]

section Family

variable {F : Multiset (Cycle ι)}

theorem mem_nodes_ring_add : x ∈ nodes (ring A + F) ↔ x ∈ A ∨ x ∈ nodes F := by
  rw [nodes_add, nodes_ring, Multiset.mem_add, Multiset.mem_coe]

theorem mem_nodes_of_ne (hx : x ∈ nodes (ring (y :: A) + F)) (hne : x ≠ y) : x ∈ nodes (ring A + F) := by
  rcases mem_nodes_ring_add.mp hx with hmem | hmem
  · exact mem_nodes_ring_add.mpr (.inl (mem_of_ne_of_mem hne hmem))
  · exact mem_nodes_ring_add.mpr (.inr hmem)

theorem mem_nodes_ring : x ∈ nodes (ring (x :: A) + F) :=
  mem_nodes_ring_add.mpr (.inl mem_cons_self)

theorem exists_rings (hx : x ∈ nodes F) (hy : y ∈ nodes F) (hsep : ∀ c ∈ F, ¬ (x ∈ c ∧ y ∈ c)) :
    ∃ A B G, F = ring (x :: A) + ring (y :: B) + G := by
  obtain ⟨A, G, rfl⟩ := exists_ring hx
  have hy : y ∈ nodes G := by
    rcases mem_nodes_ring_add.mp hy with hyA | hy
    · exact absurd ⟨mem_cons_self, hyA⟩
        (hsep _ (Multiset.mem_add.mpr (.inl (Multiset.mem_singleton_self _))))
    · exact hy
  obtain ⟨B, G, rfl⟩ := exists_ring hy
  exact ⟨A, B, G, (add_assoc ..).symm⟩

theorem holds_ring_add : h.Holds (ring (x :: A) + F) ↔
    h.Path x A x ∧ (x :: A).Nodup ∧ (∀ y ∈ x :: A, y ∉ nodes F) ∧ h.Holds F := by
  have hdisjoint : (nodes (ring (x :: A) + F)).Nodup ↔
      (x :: A).Nodup ∧ (nodes F).Nodup ∧ ∀ y ∈ x :: A, y ∉ nodes F := by
    rw [nodes_add, nodes_ring, Multiset.nodup_add, Multiset.disjoint_left]
    rfl
  constructor
  · intro hold
    obtain ⟨hnodup, hF, hnot⟩ := hdisjoint.mp hold.disjoint
    refine ⟨chain_cons_iff.mp (hold.linked _ ?_), hnodup, hnot,
      ⟨fun c hc => hold.nonempty c ?_, fun c hc => hold.linked c ?_, hF⟩⟩
    · exact Multiset.mem_add.mpr (.inl (Multiset.mem_singleton_self _))
    · exact Multiset.mem_add.mpr (.inr hc)
    · exact Multiset.mem_add.mpr (.inr hc)
  · rintro ⟨hpath, hnodup, hnot, hF⟩
    refine ⟨fun c hc => ?_, fun c hc => ?_, hdisjoint.mpr ⟨hnodup, hF.disjoint, hnot⟩⟩
    · rcases Multiset.mem_add.mp hc with hc | hc
      · rw [Multiset.mem_singleton.mp hc]
        exact (Cycle.coe_eq_nil _).not.mpr (cons_ne_nil x A)
      · exact hF.nonempty c hc
    · rcases Multiset.mem_add.mp hc with hc | hc
      · rw [Multiset.mem_singleton.mp hc]
        exact chain_cons_iff.mpr hpath
      · exact hF.linked c hc

theorem Holds.edge_next (hold : h.Holds F) (hx : x ∈ nodes F) : h.Edge x (h.next x) := by
  obtain ⟨A, G, rfl⟩ := exists_ring hx
  exact (holds_ring_add.mp hold).1.edge_next

theorem Holds.edge_prev (hold : h.Holds F) (hx : x ∈ nodes F) : h.Edge (h.prev x) x := by
  obtain ⟨A, G, rfl⟩ := exists_ring hx
  exact (holds_ring_add.mp hold).1.edge_prev

theorem Holds.prev_eq (hold : h.Holds (ring (x :: (A ++ [y])) + F)) : h.prev x = y :=
  (path_append.mp (holds_ring_add.mp hold).1).2.2

theorem Holds.prev_single (hold : h.Holds (ring [x] + F)) : h.prev x = x :=
  (holds_ring_add.mp hold).1.2

theorem Holds.ne_of_mem (hold : h.Holds (ring (a :: A) + ring (b :: B) + F)) (hx : x ∈ a :: A)
    (hy : y ∈ b :: B) : x ≠ y := by
  rw [add_assoc] at hold
  rintro rfl
  exact (holds_ring_add.mp hold).2.2.1 x hx (mem_nodes_ring_add.mpr (.inl hy))

theorem Holds.prev_mem (hold : h.Holds (ring (x :: A) + F)) : h.prev x ∈ x :: A := by
  rcases eq_nil_or_concat A with rfl | ⟨C, p, rfl⟩
  · rw [hold.prev_single]
    exact mem_cons_self
  · rw [concat_eq_append] at hold ⊢
    rw [hold.prev_eq]
    exact mem_cons_of_mem x (mem_append_right C mem_cons_self)

theorem Holds.next_ne (hold : h.Holds (ring (x :: y :: A) + F)) : h.next x ≠ x := by
  obtain ⟨hpath, hnodup, -, -⟩ := holds_ring_add.mp hold
  rw [hpath.1.1]
  rintro rfl
  exact (nodup_cons.mp hnodup).1 mem_cons_self

theorem mem_nodes_of_mem {c : Cycle ι} (hc : c ∈ F) (hx : x ∈ c) : x ∈ nodes F := by
  refine Multiset.mem_bind.mpr ⟨c, hc, ?_⟩
  obtain ⟨l, rfl⟩ := Quot.exists_rep c
  exact hx

/-- Rings depend on the links of their nodes only. -/
theorem Holds.congr {h' : Links ι} (hold : h.Holds F) (hnext : ∀ y ∈ nodes F, h'.next y = h.next y)
    (hprev : ∀ y ∈ nodes F, h'.prev y = h.prev y) : h'.Holds F := by
  refine ⟨hold.nonempty, fun c hc => ?_, hold.disjoint⟩
  have hlinked := hold.linked c hc
  have hmem : ∀ y ∈ c, y ∈ nodes F := fun y hy => mem_nodes_of_mem hc hy
  obtain ⟨l, rfl⟩ := Quot.exists_rep c
  cases l with
  | nil => exact absurd rfl (hold.nonempty _ hc)
  | cons x A =>
    apply chain_cons_iff.mpr
    apply Path.congr _ _ (chain_cons_iff.mp hlinked)
    · intro y hy
      exact hnext y (hmem y hy)
    · intro y hy
      apply hprev y (hmem y _)
      exact (mem_append.mp hy).elim (mem_cons_of_mem x) fun hy => (mem_singleton.mp hy) ▸ mem_cons_self

theorem Holds.of_add {G : Multiset (Cycle ι)} (hold : h.Holds (G + F)) : h.Holds F := by
  refine ⟨fun c hc => hold.nonempty c ?_, fun c hc => hold.linked c ?_, ?_⟩
  · exact Multiset.mem_add.mpr (.inr hc)
  · exact Multiset.mem_add.mpr (.inr hc)
  · have hdisjoint := hold.disjoint
    rw [nodes_add] at hdisjoint
    exact (Multiset.nodup_add.mp hdisjoint).2.1

theorem holds_zero (h : Links ι) : h.Holds 0 :=
  ⟨fun c hc => absurd hc (Multiset.notMem_zero c), fun c hc => absurd hc (Multiset.notMem_zero c),
    Multiset.nodup_zero⟩

variable [DecidableEq ι]

theorem Holds.exchange (hold : h.Holds F) (ha : h.Edge a (h.next a)) (hb : h.Edge b (h.next b))
    (hna : a ∉ nodes F) (hnb : b ∉ nodes F) : (h.exchange a b).Holds F := by
  refine ⟨hold.nonempty, fun c hc => ?_, hold.disjoint⟩
  have hlinked := hold.linked c hc
  have havoid : ∀ y ∈ c, y ≠ a ∧ y ≠ b := by
    intro y hy
    have hmem : y ∈ nodes F := Multiset.mem_bind.mpr ⟨c, hc, by
      obtain ⟨l, rfl⟩ := Quot.exists_rep c
      exact hy⟩
    exact ⟨fun heq => hna (heq ▸ hmem), fun heq => hnb (heq ▸ hmem)⟩
  obtain ⟨l, rfl⟩ := Quot.exists_rep c
  cases l with
  | nil => exact absurd rfl (hold.nonempty _ hc)
  | cons x A =>
    have hpath := chain_cons_iff.mp hlinked
    have hx := havoid x mem_cons_self
    refine chain_cons_iff.mpr (hpath.exchange ha hb hx.1 hx.2 fun y hy => ?_)
    exact havoid y (mem_cons_of_mem x hy)

/-- Two rings are joined by exchanging the successors of a node of each. -/
theorem Holds.join (hold : h.Holds (ring (a :: A) + ring (b :: B) + F)) :
    (h.exchange a b).Holds (ring (a :: B ++ b :: A) + F) := by
  rw [add_assoc] at hold
  obtain ⟨hpathA, hnodupA, hnotA, hold⟩ := holds_ring_add.mp hold
  obtain ⟨hpathB, hnodupB, hnotB, hF⟩ := holds_ring_add.mp hold
  have hseparate : ∀ y ∈ a :: A, y ∉ b :: B ∧ y ∉ nodes F := fun y hy =>
    not_or.mp (mem_nodes_ring_add.not.mp (hnotA y hy))
  have hab : a ≠ b := fun heq => (hseparate a mem_cons_self).1 (heq ▸ mem_cons_self)
  have havoidA : ∀ y ∈ A, y ≠ a ∧ y ≠ b := fun y hy =>
    ⟨fun heq => (nodup_cons.mp hnodupA).1 (heq ▸ hy),
      fun heq => (hseparate y (mem_cons_of_mem a hy)).1 (heq ▸ mem_cons_self)⟩
  have havoidB : ∀ y ∈ B, y ≠ a ∧ y ≠ b := fun y hy =>
    ⟨fun heq => (hseparate a mem_cons_self).1 (heq ▸ mem_cons_of_mem b hy),
      fun heq => (nodup_cons.mp hnodupB).1 (heq ▸ hy)⟩
  have ha := hpathA.edge_next
  have hb := hpathB.edge_next
  refine holds_ring_add.mpr ⟨?_, ?_, ?_, ?_⟩
  · exact path_append.mpr ⟨hpathB.exchange_left ha havoidB, hpathA.exchange_right hab hb havoidA⟩
  · have hperm : (a :: B ++ b :: A).Perm (a :: A ++ b :: B) :=
      (perm_middle.trans ((perm_append_comm).cons b)).cons a |>.trans
        (perm_middle.symm.cons a)
    refine hperm.nodup_iff.mpr (nodup_append.mpr ⟨hnodupA, hnodupB, ?_⟩)
    rintro y hy _ hz rfl
    exact (hseparate y hy).1 hz
  · intro y hy
    rcases mem_append.mp (show y ∈ (a :: B) ++ (b :: A) from hy) with hy | hy
    · rcases mem_cons.mp hy with rfl | hy
      · exact (hseparate y mem_cons_self).2
      · exact hnotB y (mem_cons_of_mem b hy)
    · rcases mem_cons.mp hy with rfl | hy
      · exact hnotB y mem_cons_self
      · exact (hseparate y (mem_cons_of_mem a hy)).2
  · exact hF.exchange ha hb (hseparate a mem_cons_self).2 (hnotB b mem_cons_self)

/-- A ring is cut apart by exchanging the successors of two of its nodes. -/
theorem Holds.cut (hold : h.Holds (ring (a :: A ++ b :: B) + F)) :
    (h.exchange a b).Holds (ring (a :: B) + ring (b :: A) + F) := by
  obtain ⟨hpath, hnodup, hnot, hF⟩ := holds_ring_add.mp hold
  obtain ⟨hpathA, hpathB⟩ := path_append.mp hpath
  obtain ⟨hnodupA, hnodupB, hseparate⟩ := nodup_append.mp (show (a :: A ++ b :: B).Nodup from hnodup)
  have hab : a ≠ b := hseparate a mem_cons_self b mem_cons_self
  have havoidA : ∀ y ∈ A, y ≠ a ∧ y ≠ b := fun y hy =>
    ⟨fun heq => (nodup_cons.mp hnodupA).1 (heq ▸ hy),
      hseparate y (mem_cons_of_mem a hy) b mem_cons_self⟩
  have havoidB : ∀ y ∈ B, y ≠ a ∧ y ≠ b := fun y hy =>
    ⟨fun heq => hseparate a mem_cons_self y (mem_cons_of_mem b hy) heq.symm,
      fun heq => (nodup_cons.mp hnodupB).1 (heq ▸ hy)⟩
  have hmemA : ∀ y ∈ a :: A, y ∉ nodes F := fun y hy => hnot y (mem_append_left _ hy)
  have hmemB : ∀ y ∈ b :: B, y ∉ nodes F := fun y hy =>
    hnot y (mem_append_right (a :: A) hy)
  have ha := hpathA.edge_next
  have hb := hpathB.edge_next
  rw [add_assoc]
  refine holds_ring_add.mpr ⟨hpathB.exchange_left ha havoidB, ?_, ?_, holds_ring_add.mpr
    ⟨hpathA.exchange_right hab hb havoidA, ?_, ?_, ?_⟩⟩
  · exact nodup_cons.mpr ⟨fun hmem => (havoidB a hmem).1 rfl, (nodup_cons.mp hnodupB).2⟩
  · intro y hy
    rw [mem_nodes_ring_add]
    rintro (hmem | hmem)
    · rcases mem_cons.mp hy with rfl | hyB
      · rcases mem_cons.mp hmem with heq | hmem
        · exact hab heq
        · exact (havoidA y hmem).1 rfl
      · rcases mem_cons.mp hmem with rfl | hmem
        · exact (havoidB y hyB).2 rfl
        · exact hseparate y (mem_cons_of_mem a hmem) y (mem_cons_of_mem b hyB) rfl
    · rcases mem_cons.mp hy with rfl | hyB
      · exact hmemA y mem_cons_self hmem
      · exact hmemB y (mem_cons_of_mem b hyB) hmem
  · exact nodup_cons.mpr ⟨fun hmem => (havoidA b hmem).2 rfl, (nodup_cons.mp hnodupA).2⟩
  · intro y hy
    rcases mem_cons.mp hy with rfl | hy
    · exact hmemB y mem_cons_self
    · exact hmemA y (mem_cons_of_mem a hy)
  · exact hF.exchange ha hb (hmemA a mem_cons_self) (hmemB b mem_cons_self)

/-- A node is taken out of its ring. -/
theorem Holds.takeOut (hold : h.Holds (ring (x :: A) + F)) :
    (h.exchange (h.prev x) x).Holds (ring [x] + ring A + F) := by
  rcases eq_nil_or_concat A with rfl | ⟨C, p, rfl⟩
  · rw [hold.prev_single, exchange_self (hold.edge_next mem_nodes_ring)]
    exact (add_zero (ring [x])).symm ▸ hold
  · rw [concat_eq_append] at hold ⊢
    rw [hold.prev_eq]
    have hrotated : ring (x :: (C ++ [p])) = ring (p :: [] ++ x :: C) := ring_append_comm (x :: C) [p]
    rw [hrotated] at hold
    have hcut := hold.cut
    rw [add_comm (ring [x]), ring_append_comm C [p]]
    exact hcut

/-- A single node is put into a ring. -/
theorem Holds.putIn (hold : h.Holds (ring [y] + (ring (x :: A) + F))) :
    (h.exchange x y).Holds (ring (x :: y :: A) + F) := by
  rw [← add_assoc, add_comm (ring [y])] at hold
  exact hold.join

/-- A single node is put before a node of a ring. -/
theorem Holds.putBefore (hold : h.Holds (ring [y] + (ring (x :: A) + F))) :
    (h.exchange (h.prev x) y).Holds (ring (y :: x :: A) + F) := by
  have hring : h.Holds (ring (x :: A) + (ring [y] + F)) := by
    rw [add_left_comm]
    exact hold
  rcases eq_nil_or_concat A with rfl | ⟨C, p, rfl⟩
  · have hrotated : ring (y :: x :: []) = ring (x :: [y]) := ring_append_comm [y] [x]
    rw [hring.prev_single, hrotated]
    exact hold.putIn
  · rw [concat_eq_append] at hold hring ⊢
    have hrotated : ring (x :: (C ++ [p])) = ring (p :: x :: C) := ring_append_comm (x :: C) [p]
    have hrotated' : ring (y :: x :: (C ++ [p])) = ring (p :: y :: x :: C) :=
      ring_append_comm (y :: x :: C) [p]
    rw [hring.prev_eq, hrotated']
    rw [hrotated] at hold
    exact hold.putIn

/-- All but one node of a ring are put into another ring. -/
theorem Holds.splice (hold : h.Holds (ring (a :: A) + ring (b :: B) + F)) :
    ((h.exchange a (h.prev b)).exchange a b).Holds (ring (a :: B ++ A) + ring [b] + F) := by
  have hring : h.Holds (ring (b :: B) + (ring (a :: A) + F)) := by
    rw [← add_assoc, add_comm (ring (b :: B))]
    exact hold
  rcases eq_nil_or_concat B with rfl | ⟨C, p, rfl⟩
  · rw [hring.prev_single]
    exact hold.join.cut
  · rw [concat_eq_append] at hold hring ⊢
    have hrotated : ring (b :: (C ++ [p])) = ring (p :: b :: C) := ring_append_comm (b :: C) [p]
    rw [hring.prev_eq]
    rw [hrotated] at hold
    have hcut := Holds.cut (A := []) hold.join
    rw [cons_append, append_assoc]
    exact hcut

end Family

end Links

end Lumiera
