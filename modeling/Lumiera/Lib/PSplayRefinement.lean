import Lumiera.Base.Machine
import Lumiera.Lib.PSplayRemove
import Mathlib.Data.Finset.Card

/-! # The splay tree is a map

A session is a sequence of calls, with any splay factors and any outcomes of the random generator.
The nodes inserted and not yet removed are accounted for by the results of the calls. In every state
reached, these are the nodes of the tree, in ascending order of the keys; and the calls answer as
for a map from keys to nodes. -/

namespace Lumiera.Lib.Psplay

open List LinkedTree SearchTree

variable {ι κ : Type*} [DecidableEq ι]

/-- The tree, and the nodes inserted and not yet removed. -/
structure Session (ι : Type*) where
  splay : PSplay ι
  members : Finset ι

/-- The calls. -/
inductive Call (ι κ : Type*)
  | init (node : ι)
  | insert (node : ι) (splayfactor : UInt32)
  | find (k : κ) (splayfactor : UInt32)
  | remove (node : Option ι)
  | removeKey (k : κ)

/-- Nodes are initialised and inserted while they are not linked, and inserted only when they are fresh. -/
def Call.Allowed (s : Session ι) : Call ι κ → Prop
  | .init node => node ∉ s.members
  | .insert node _ => node ∉ s.members ∧ ∀ d, s.splay.memory (.child node d) = none
  | _ => True

/-- Which nodes are in the tree after a call with this result. -/
def account (members : Finset ι) : Call ι κ → Option ι → Finset ι
  | .insert _ _, some node => insert node members
  | .remove _, some node => members.erase node
  | .removeKey _, some node => members.erase node
  | _, _ => members

section Keys

variable (cmp : κ → κ → ℤ) (key : ι → κ)

/-- Performing a call. -/
def perform (fuel : ℕ) (prng : ℕ → UInt32) (self : PSplay ι) : Call ι κ → Option (Option ι × PSplay ι)
  | .init node => some (some node, { self with memory := psplaynodeInit self.memory node })
  | .insert node splayfactor => psplayInsert cmp key fuel prng self node splayfactor
  | .find k splayfactor => psplayFind cmp key fuel prng self k splayfactor
  | .remove node => psplayRemove cmp key fuel prng self node
  | .removeKey k => psplayRemoveKey cmp key fuel prng self k

/-- **Sessions**: any sequence of allowed calls which return. -/
def sessions : Machine (Session ι) (Call ι κ × ℕ × (ℕ → UInt32) × Option ι) where
  init s := ∃ m, s = ⟨psplayInit m, ∅⟩
  step s a s' := a.1.Allowed s ∧ perform cmp key a.2.1 a.2.2.1 s.splay a.1 = some (a.2.2.2, s'.splay) ∧
    s'.members = account s.members a.1 a.2.2.2

/-- **The tree is a search tree with just these nodes**, which are counted. -/
def Refines (s : Session ι) : Prop :=
  ∃ t, Holds s.splay.memory (s.splay.memory .root) t ∧ Ascending cmp key (inorder t) ∧
    (∀ n, n ∈ inorder t ↔ n ∈ s.members) ∧ s.splay.elem_cnt = s.members.card

/-- **The node was unlinked**: the link found leads to it and is the one to the root or belongs to a
node which is still in the tree; setting this link makes the new tree. -/
def Unlinked (fuel : ℕ) (prng : ℕ → UInt32) (s s' : Session ι) (x : ι) : Prop :=
  ∃ self₁ m, locate cmp key fuel prng fuel s.splay x = some (self₁, some self₁.found_parent) ∧
    self₁.memory self₁.found_parent = some x ∧
    (self₁.found_parent = .root ∨ ∃ y ∈ s'.members, ∃ d, self₁.found_parent = .child y d) ∧
    unlink fuel prng self₁.found_parent x self₁.memory = some m ∧
    s'.splay = countDown { self₁ with memory := m }

/-- **What the calls answer.** -/
def Served (fuel : ℕ) (prng : ℕ → UInt32) (s s' : Session ι) (res : Option ι) : Call ι κ → Prop
  | .init _ => True
  | .insert node _ =>
    ((∃ y ∈ s.members, cmp (key node) (key y) = 0) → res = none ∧ s' = s) ∧
      ((∀ y ∈ s.members, cmp (key node) (key y) ≠ 0) → res = some node)
  | .find k _ => s'.members = s.members ∧ ∀ x, res = some x ↔ x ∈ s.members ∧ cmp k (key x) = 0
  | .remove node =>
    (∀ x ∈ s.members, node = some x → res = some x ∧ Unlinked cmp key fuel prng s s' x) ∧
      ((∀ x ∈ s.members, node ≠ some x) → res = none)
  | .removeKey k => ∀ x, res = some x ↔ x ∈ s.members ∧ cmp k (key x) = 0

/-- A call which returns: a node to be removed is in the tree, or its key is not. -/
def Answerable (s : Session ι) : Call ι κ → Prop
  | .remove (some x) => x ∈ s.members ∨ ∀ y ∈ s.members, cmp (key x) (key y) ≠ 0
  | _ => True

end Keys

variable {cmp : κ → κ → ℤ} {key : ι → κ} {s s' : Session ι} {l : List ι} {call : Call ι κ} {fuel : ℕ}
  {prng : ℕ → UInt32} {res : Option ι}

/-- **The invariant**: the tree represents the nodes in some order. -/
def Kept (cmp : κ → κ → ℤ) (key : ι → κ) (s : Session ι) : Prop :=
  ∃ l, Represents cmp key s.splay l ∧ ∀ n, n ∈ l ↔ n ∈ s.members

theorem Kept.refines (hcmp : TotalOrder cmp) (h : Kept cmp key s) : Refines cmp key s := by
  obtain ⟨l, hrep, hmem⟩ := h
  obtain ⟨t, ht, rfl⟩ := hrep.holds
  refine ⟨t, ht, hrep.ascending, hmem, ?_⟩
  have heq : (inorder t).toFinset = s.members := by
    ext n
    rw [mem_toFinset, hmem]
  rw [hrep.count, ← heq, toFinset_card_of_nodup (hrep.ascending.nodup hcmp)]

theorem represents_psplaynodeInit {self : PSplay ι} {node : ι} (h : Represents cmp key self l)
    (hnew : node ∉ l) :
    Represents cmp key { self with memory := psplaynodeInit self.memory node } l := by
  obtain ⟨t, ht, rfl⟩ := h.holds
  have hother : ∀ L, (∀ d, L ≠ .child node d) → psplaynodeInit self.memory node L = self.memory L := by
    intro L hL
    rw [psplaynodeInit, Function.update_of_ne (hL _), Function.update_of_ne (hL _)]
  refine ⟨⟨t, ?_, rfl⟩, h.ascending, h.anchored, h.count⟩
  apply ht.congr
  intro y hy d
  apply hother
  intro e heq
  exact hnew ((Link.child.inj heq).1 ▸ hy)

/-! ## Removing -/

omit [DecidableEq ι] in
theorem mem_split_iff {before after : List ι} {x : ι} (hnodup : (before ++ x :: after).Nodup) (n : ι) :
    n ∈ before ++ after ↔ n ≠ x ∧ n ∈ before ++ x :: after := by
  rw [nodup_append, nodup_cons] at hnodup
  obtain ⟨-, ⟨hafter, -⟩, hbefore⟩ := hnodup
  simp only [mem_append, mem_cons]
  constructor
  · rintro (hn | hn)
    · exact ⟨hbefore n hn x mem_cons_self, Or.inl hn⟩
    · exact ⟨fun heq => hafter (heq ▸ hn), Or.inr (Or.inr hn)⟩
  · rintro ⟨hne, hn | rfl | hn⟩
    · exact Or.inl hn
    · exact absurd rfl hne
    · exact Or.inr hn

/-- A removal in terms of the nodes accounted for. -/
theorem removed_spec (hcmp : TotalOrder cmp) {node : Option ι} (hmem : ∀ n, n ∈ l ↔ n ∈ s.members)
    (hnodup : l.Nodup) (h : Removed cmp key fuel prng s.splay s'.splay l node res)
    (hmembers : s'.members = match res with | none => s.members | some x => s.members.erase x) :
    Kept cmp key s' ∧ (∀ x ∈ s.members, node = some x → res = some x ∧ Unlinked cmp key fuel prng s s' x) ∧
      ((∀ x ∈ s.members, node ≠ some x) → res = none) := by
  rcases h with ⟨rfl, hrep, habsent⟩ |
    ⟨x, before, after, self₁, m, rfl, rfl, rfl, hlocate, hlink, hanchored, hunlink,
    hself, hrep⟩
  · refine ⟨⟨l, hrep, by rw [hmembers]; exact hmem⟩, ?_, fun _ => rfl⟩
    intro x hx hnode
    exact absurd (hcmp.refl _) (habsent x hnode x ((hmem x).mpr hx))
  · have hkept : ∀ n, n ∈ before ++ after ↔ n ∈ s'.members := by
      intro n
      rw [mem_split_iff hnodup, hmem, hmembers]
      exact Finset.mem_erase.symm
    refine ⟨⟨_, hrep, hkept⟩, ?_, ?_⟩
    · rintro y - hnode
      cases hnode
      refine ⟨rfl, self₁, m, hlocate, hlink, ?_, hunlink, hself⟩
      rcases hanchored with hroot | ⟨y, hy, hside⟩
      · exact Or.inl hroot
      · exact Or.inr ⟨y, (hkept y).mp hy, hside⟩
    · intro habsent
      have hx : x ∈ s.members := (hmem x).mp (mem_append_right _ mem_cons_self)
      exact absurd rfl (habsent x hx)

/-! ## Steps -/

/-- Each call keeps the tree and answers as it should. -/
theorem Kept.step (hcmp : TotalOrder cmp) (h : Kept cmp key s) (hallowed : call.Allowed s)
    (hrun : perform cmp key fuel prng s.splay call = some (res, s'.splay))
    (hmembers : s'.members = account s.members call res) :
    Kept cmp key s' ∧ Served cmp key fuel prng s s' res call := by
  obtain ⟨l, hrep, hmem⟩ := h
  have hnodup := hrep.ascending.nodup hcmp
  cases call with
  | init node =>
    obtain ⟨-, hself⟩ := Prod.mk.inj (Option.some.inj hrun)
    have hnew : node ∉ l := fun hn => hallowed ((hmem node).mp hn)
    refine ⟨⟨l, ?_, by rw [hmembers]; exact hmem⟩, trivial⟩
    rw [← hself]
    exact represents_psplaynodeInit hrep hnew
  | insert node splayfactor =>
    have hnew : node ∉ l := fun hn => hallowed.1 ((hmem node).mp hn)
    rcases (psplayInsert_spec fuel prng splayfactor hcmp hrep hnew hallowed.2).2 res s'.splay hrun with
      ⟨rfl, hself, y, hy, hequal⟩ | ⟨rfl, habsent, l', hrep', hperm⟩
    · have hsame : s' = s := by
        obtain ⟨splay, members⟩ := s
        obtain ⟨splay', members'⟩ := s'
        obtain rfl : splay' = splay := hself
        obtain rfl : members' = members := hmembers
        rfl
      refine ⟨⟨l, by rw [hself]; exact hrep, by rw [hmembers]; exact hmem⟩, fun _ => ⟨rfl, hsame⟩,
        fun habsent => ?_⟩
      exact absurd hequal (habsent y ((hmem y).mp hy))
    · refine ⟨⟨l', hrep', fun n => ?_⟩, ?_, fun _ => rfl⟩
      · rw [hperm.mem_iff, mem_cons, hmem, hmembers, account, Finset.mem_insert]
      · rintro ⟨y, hy, hequal⟩
        exact absurd hequal (habsent y ((hmem y).mpr hy))
  | find k splayfactor =>
    obtain ⟨hrep', hfound⟩ := (psplayFind_spec fuel prng k splayfactor hcmp hrep).2 res s'.splay hrun
    refine ⟨⟨l, hrep', by rw [hmembers]; exact hmem⟩, hmembers, fun x => ?_⟩
    rw [← hmem]
    rcases hfound with ⟨rfl, -, habsent⟩ | ⟨y, hy, rfl, hequal, -⟩
    · exact ⟨nofun, fun hx => absurd hx.2 (habsent x hx.1)⟩
    · constructor
      · rintro ⟨⟩
        exact ⟨hy, hequal⟩
      · rintro ⟨hx, hkey⟩
        rw [hrep.ascending.unique hcmp hx hy hkey hequal]
  | remove node =>
    have hremoved := (psplayRemove_spec fuel prng hcmp hrep).2 res s'.splay hrun
    exact removed_spec hcmp hmem hnodup hremoved (by rw [hmembers]; cases res <;> rfl)
  | removeKey k =>
    obtain ⟨⟨found, self₁⟩, hfind, hremove⟩ := Option.bind_eq_some_iff.mp hrun
    obtain ⟨hrep₁, hfound⟩ := (psplayFind_spec fuel prng k 0 hcmp hrep).2 found self₁ hfind
    have hremoved := (psplayRemove_spec fuel prng hcmp hrep₁).2 res s'.splay hremove
    obtain ⟨hkept, hserved, hnothing⟩ := removed_spec (s := ⟨self₁, s.members⟩) hcmp hmem hnodup hremoved
      (by rw [hmembers]; cases res <;> rfl)
    refine ⟨hkept, fun x => ?_⟩
    rcases hfound with ⟨rfl, -, habsent⟩ | ⟨y, hy, rfl, hequal, -⟩
    · rw [hnothing fun _ _ => nofun]
      exact ⟨nofun, fun hx => absurd hx.2 (habsent x ((hmem x).mpr hx.1))⟩
    · rw [(hserved y ((hmem y).mp hy) rfl).1]
      constructor
      · rintro ⟨⟩
        exact ⟨(hmem _).mp hy, hequal⟩
      · rintro ⟨hx, hkey⟩
        rw [hrep.ascending.unique hcmp ((hmem x).mpr hx) hy hkey hequal]

/-- A call returns when there is enough fuel. -/
theorem Kept.returns (hcmp : TotalOrder cmp) (h : Kept cmp key s) (fuel : ℕ) (prng : ℕ → UInt32)
    (hallowed : call.Allowed s) (hanswer : Answerable cmp key s call) (hfuel : s.members.card < fuel) :
    ∃ out, perform cmp key fuel prng s.splay call = some out := by
  obtain ⟨l, hrep, hmem⟩ := h
  have hlength : l.length < fuel := by
    have heq : l.toFinset = s.members := by
      ext n
      rw [mem_toFinset, hmem]
    rwa [← toFinset_card_of_nodup (hrep.ascending.nodup hcmp), heq]
  cases call with
  | init node => exact ⟨_, rfl⟩
  | insert node splayfactor =>
    have hnew : node ∉ l := fun hn => hallowed.1 ((hmem node).mp hn)
    exact (psplayInsert_spec fuel prng splayfactor hcmp hrep hnew hallowed.2).1 hlength.le
  | find k splayfactor => exact (psplayFind_spec fuel prng k splayfactor hcmp hrep).1 hlength.le
  | remove node =>
    apply (psplayRemove_spec fuel prng hcmp hrep).1 _ hlength
    rintro x rfl
    rcases hanswer with hx | habsent
    · exact Or.inl ((hmem x).mpr hx)
    · exact Or.inr fun y hy => habsent y ((hmem y).mp hy)
  | removeKey k =>
    obtain ⟨hreturns, hright⟩ := psplayFind_spec fuel prng k 0 hcmp hrep
    obtain ⟨⟨found, self₁⟩, hfind⟩ := hreturns hlength.le
    obtain ⟨hrep₁, hfound⟩ := hright found self₁ hfind
    have hremove : ∃ out, psplayRemove cmp key fuel prng self₁ found = some out := by
      apply (psplayRemove_spec fuel prng hcmp hrep₁).1 _ hlength
      rintro x rfl
      rcases hfound with ⟨hnone, -⟩ | ⟨y, hy, hx, -⟩
      · exact absurd hnone nofun
      · exact Or.inl (Option.some.inj hx ▸ hy)
    obtain ⟨out, hout⟩ := hremove
    exact ⟨out, Option.bind_eq_some_iff.mpr ⟨_, hfind, hout⟩⟩

/-! ## Sessions -/

/-- The invariant holds throughout a session. -/
theorem invariant_kept (hcmp : TotalOrder cmp) : (sessions cmp key).Invariant (Kept cmp key) where
  init := by
    rintro _ ⟨m, rfl⟩
    exact ⟨[], represents_psplayInit cmp key m, fun n => by simp⟩
  step := by
    rintro s ⟨call, fuel, prng, res⟩ s' hkept ⟨hallowed, hrun, hmembers⟩
    exact (hkept.step hcmp hallowed hrun hmembers).1

/-- **The splay tree is a map**: in every state reached, it is a search tree with just the nodes
inserted and not yet removed; every call answers for them; and the calls return. -/
theorem psplay_refines (hcmp : TotalOrder cmp) (hs : (sessions cmp key).Reachable s) :
    Refines cmp key s ∧
      (∀ call fuel prng res s', (sessions cmp key).step s (call, fuel, prng, res) s' →
        Served cmp key fuel prng s s' res call) ∧
      ∀ call fuel prng, call.Allowed s → Answerable cmp key s call → s.members.card < fuel →
        ∃ res s', (sessions cmp key).step s (call, fuel, prng, res) s' := by
  have hkept := (invariant_kept hcmp).reachable hs
  refine ⟨hkept.refines hcmp, ?_, ?_⟩
  · rintro call fuel prng res s' ⟨hallowed, hrun, hmembers⟩
    exact (hkept.step hcmp hallowed hrun hmembers).2
  · intro call fuel prng hallowed hanswer hfuel
    obtain ⟨⟨res, splay⟩, hrun⟩ := hkept.returns hcmp fuel prng hallowed hanswer hfuel
    exact ⟨res, ⟨splay, account s.members call res⟩, hallowed, hrun, rfl⟩

/-! ## Destroying the tree -/

/-- Removing what is at the root, again and again, by induction on the rounds which remain. -/
theorem Kept.destroy (hcmp : TotalOrder cmp) (prng : ℕ → ℕ → UInt32) (rounds : ℕ) (h : Kept cmp key s)
    (hfuel : s.members.card < fuel) (hrounds : s.members.card < rounds) : ∃ (deleted : List ι) (self' : PSplay ι),
    psplayDestroy cmp key fuel prng rounds s.splay = some (deleted.map some, self') ∧ deleted.Nodup ∧
    (∀ n, n ∈ deleted ↔ n ∈ s.members) ∧ self'.memory .root = none ∧ self'.elem_cnt = 0 := by
  induction rounds generalizing s with
  | zero => exact absurd hrounds (Nat.not_lt_zero _)
  | succ rounds ih =>
    obtain ⟨l, hrep, hmem⟩ := id h
    obtain ⟨t, ht, rfl⟩ := hrep.holds
    rw [psplayDestroy]
    cases hroot : s.splay.memory .root with
    | none =>
      rw [hroot] at ht
      obtain rfl := ht.eq_nil
      exact ⟨[], s.splay, rfl, nodup_nil, hmem, hroot, hrep.count⟩
    | some tree =>
      rw [hroot] at ht
      obtain ⟨l, r, rfl⟩ := ht.exists_node
      have hx : tree ∈ s.members := (hmem tree).mp (by simp [inorder])
      have hallowed : Call.Allowed s (.remove (some tree) : Call ι κ) := trivial
      obtain ⟨⟨res, splay⟩, hrun⟩ := h.returns hcmp fuel (prng rounds) hallowed (Or.inl hx) hfuel
      have hafter : perform cmp key fuel (prng rounds) s.splay (.remove (some tree)) = some (res,
          (⟨splay, account s.members (.remove (some tree) : Call ι κ) res⟩ : Session ι).splay) := hrun
      obtain ⟨hkept, hserved⟩ := h.step hcmp hallowed hafter rfl
      obtain rfl : res = some tree := (hserved.1 tree hx rfl).1
      have hcard : (s.members.erase tree).card + 1 = s.members.card := Finset.card_erase_add_one hx
      -- the other nodes remain, and thus one round less is needed
      obtain ⟨deleted, self', hdestroy, hnodup, hdeleted, hempty, hcount⟩ :=
        ih hkept (by simp only [account]; omega) (by simp only [account]; omega)
      have hremove : psplayRemove cmp key fuel (prng rounds) s.splay (some tree) = some (some tree, splay) :=
        hrun
      refine ⟨tree :: deleted, self', ?_, nodup_cons.mpr ⟨?_, hnodup⟩, fun n => ?_, hempty, hcount⟩
      · simp [hremove, hdestroy]
      · simp [hdeleted, account]
      · rw [mem_cons, hdeleted, account]
        by_cases hn : n = tree
        · simp [hn, hx]
        · simp [hn]

/-- **The tree is destroyed** after any session: each node inserted and not yet removed is handed to
`del` exactly once, and an empty tree remains. -/
theorem psplay_destroys (hcmp : TotalOrder cmp) (hs : (sessions cmp key).Reachable s) (prng : ℕ → ℕ → UInt32)
    (rounds : ℕ) (hfuel : s.members.card < fuel) (hrounds : s.members.card < rounds) : ∃ (deleted : List ι)
    (self' : PSplay ι), psplayDestroy cmp key fuel prng rounds s.splay = some (deleted.map some, self') ∧
    deleted.Nodup ∧ (∀ n, n ∈ deleted ↔ n ∈ s.members) ∧ self'.memory .root = none ∧ self'.elem_cnt = 0 :=
  ((invariant_kept hcmp).reachable hs).destroy hcmp prng rounds hfuel hrounds

/-! ## Three nodes -/

theorem exists_inserted (hcmp : TotalOrder cmp) (hs : (sessions cmp key).Reachable s) (node : ι)
    (hnew : node ∉ s.members) (habsent : ∀ y ∈ s.members, cmp (key node) (key y) ≠ 0) :
    ∃ s', (sessions cmp key).Reachable s' ∧ s'.members = insert node s.members := by
  have hinit : (sessions cmp key).Reachable
      ⟨{ s.splay with memory := psplaynodeInit s.splay.memory node }, s.members⟩ :=
    hs.step (a := (.init node, 0, fun _ => 0, some node)) ⟨hnew, rfl, rfl⟩
  have hkept := (invariant_kept hcmp).reachable hinit
  have hfresh : ∀ d, psplaynodeInit s.splay.memory node (.child node d) = none := by
    intro d
    cases d <;> simp [psplaynodeInit, Function.update]
  have hallowed : Call.Allowed ⟨{ s.splay with memory := psplaynodeInit s.splay.memory node }, s.members⟩
      (.insert node 100 : Call ι κ) := ⟨hnew, hfresh⟩
  -- The tree answers with the node, since no key equals its key.
  obtain ⟨⟨res, splay⟩, hrun⟩ := hkept.returns hcmp (s.members.card + 1) (fun _ => 0) hallowed trivial
    (Nat.lt_succ_self _)
  have hstep : (sessions cmp key).step _ (.insert node 100, s.members.card + 1, fun _ => 0, res)
      ⟨splay, account s.members (.insert node 100 : Call ι κ) res⟩ := ⟨hallowed, hrun, rfl⟩
  have hserved := (hkept.step hcmp hallowed hrun hstep.2.2).2
  refine ⟨_, hinit.step hstep, ?_⟩
  have hres : res = some node := hserved.2 habsent
  rw [hres]
  rfl

theorem totalOrder_sub : TotalOrder fun a b : ℤ => a - b where
  swap a b := by omega
  trans a b c := by omega

theorem psplay_refines_three :
    ∃ s : Session ℕ, s.members = {3, 1, 2} ∧ Refines (fun a b : ℤ => a - b) (fun n : ℕ => (n : ℤ)) s := by
  have h0 : (sessions (fun a b : ℤ => a - b) (fun n : ℕ => (n : ℤ))).Reachable
      ⟨psplayInit fun _ => none, ∅⟩ :=
    Machine.Reachable.of_init ⟨_, rfl⟩
  obtain ⟨s1, h1, hm1⟩ := exists_inserted totalOrder_sub h0 2 (by simp) (by simp)
  obtain ⟨s2, h2, hm2⟩ := exists_inserted totalOrder_sub h1 1 (by simp [hm1]) (by simp [hm1])
  obtain ⟨s3, h3, hm3⟩ := exists_inserted totalOrder_sub h2 3 (by simp [hm2, hm1]) (by simp [hm2, hm1])
  exact ⟨s3, by rw [hm3, hm2, hm1]; rfl, (psplay_refines totalOrder_sub h3).1⟩

theorem psplay_destroys_single :
    ∃ s : Session ℕ, s.members = {2} ∧ ∃ (deleted : List ℕ) (self' : PSplay ℕ),
      psplayDestroy (fun a b : ℤ => a - b) (fun n : ℕ => (n : ℤ)) 2 (fun _ _ => 0) 2 s.splay =
        some (deleted.map some, self') ∧ ∀ n, n ∈ deleted ↔ n = 2 := by
  have h0 : (sessions (fun a b : ℤ => a - b) (fun n : ℕ => (n : ℤ))).Reachable
      ⟨psplayInit fun _ => none, ∅⟩ :=
    Machine.Reachable.of_init ⟨_, rfl⟩
  obtain ⟨s, hs, hm⟩ := exists_inserted totalOrder_sub h0 2 (by simp) (by simp)
  have hcard : s.members.card < 2 := by simp [hm]
  obtain ⟨deleted, self', hdestroy, -, hdeleted, -⟩ :=
    psplay_destroys totalOrder_sub hs (fun _ _ => 0) 2 hcard hcard
  exact ⟨s, by simp [hm], deleted, self', hdestroy, by simp [hdeleted, hm]⟩

end Lumiera.Lib.Psplay
