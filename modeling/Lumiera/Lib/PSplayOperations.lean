import Lumiera.Lib.PSplay

/-! # The way down

The loops of `psplay_find` and `psplay_insert` descend to the position where the key belongs, and
the trail keeps the links on the way there, of which the last ones are in the buffer. -/

namespace Lumiera.Lib.Psplay

open LinkedTree SearchTree
open Function (update)

variable {ι κ : Type*} {cmp : κ → κ → ℤ} {key : ι → κ} {m : LinkMemory ι} {fs : List (Frame ι)}
  {s : BinaryTree ι} {tr : Trail ι} {k : κ} {x n node : ι} {d : Side} {fuel : ℕ}

/-! ## The trail -/

theorem toNat_trailidx (a : UInt32) : (trailidx a).toNat = a.toNat % 128 := by
  exact Nat.and_two_pow_sub_one_eq_mod a.toNat 7

/-- **The trail leads to this position.** -/
structure OnTrail (tr : Trail ι) (fs : List (Frame ι)) : Prop where
  depth : tr.depth = UInt32.ofNat fs.length
  ring : RingHolds tr.trail tr.depth trailDepth fs

@[simp] theorem enter_depth (tr : Trail ι) (n : ι) (d : Side) : (tr.enter n d).depth = tr.depth + 1 := rfl

theorem enter_trail (tr : Trail ι) (n : ι) (d : Side) :
    (tr.enter n d).trail = update tr.trail (trailidx (tr.depth + 1)) (some (.child n d)) := rfl

theorem onTrail_start : OnTrail (Trail.start : Trail ι) [] := by
  refine ⟨rfl, fun k _ hle => ?_⟩
  obtain rfl : k = 0 := by simpa using hle
  change Trail.start.trail (trailidx (0 - UInt32.ofNat 0)) = _
  exact Function.update_self (0 : UInt32) (some (.root : Link ι)) fun _ => none

/-- One level deeper, the slot written is none of those for the levels above. -/
theorem OnTrail.enter (h : OnTrail tr fs) (n : ι) (d : Side) (sibling : BinaryTree ι) :
    OnTrail (tr.enter n d) (⟨d, n, sibling⟩ :: fs) := by
  constructor
  · rw [List.length_cons, UInt32.ofNat_add, ← h.depth]
    rfl
  · intro k hk hle
    cases k with
    | zero =>
      have hzero : (tr.enter n d).depth - UInt32.ofNat 0 = tr.depth + 1 := UInt32.sub_zero _
      rw [hzero]
      exact Function.update_self ..
    | succ k =>
      have hindex : (tr.enter n d).depth - UInt32.ofNat (k + 1) = tr.depth - UInt32.ofNat k := by
        rw [enter_depth, UInt32.ofNat_add]
        grind
      have hne : trailidx (tr.depth - UInt32.ofNat k) ≠ trailidx (tr.depth + 1) := by
        intro heq
        have hsame := congrArg UInt32.toNat heq
        rw [toNat_trailidx, toNat_trailidx, UInt32.toNat_sub, UInt32.toNat_add,
          UInt32.toNat_ofNat'] at hsame
        have hone : (1 : UInt32).toNat = 1 := rfl
        unfold trailDepth at hk
        omega
      rw [hindex, enter_trail, Function.update_of_ne hne]
      exact h.ring k (by omega) (by simpa using hle)

theorem OnTrail.link (h : OnTrail tr fs) : tr.trail (trailidx tr.depth) = some (linkAt .root fs) := by
  have hslot := h.ring 0 (by decide) (Nat.zero_le _)
  have hzero : tr.depth - UInt32.ofNat 0 = tr.depth := UInt32.sub_zero _
  rw [hzero] at hslot
  exact hslot

/-! ## Find -/

/-- **What the search comes to**: no node has the key, or a node with the key and the trail to it. -/
def Search (cmp : κ → κ → ℤ) (key : ι → κ) (k : κ) (t : BinaryTree ι) (out : Option ι × Trail ι) : Prop :=
  (out.1 = none ∧ ∀ y ∈ inorder t, cmp k (key y) ≠ 0) ∨
    ∃ x fs l r, out.1 = some x ∧ t = plug (.node x l r) fs ∧ cmp k (key x) = 0 ∧ OnTrail out.2 fs

/-- The search, by induction on the subtree at the position reached. -/
theorem findLoop_spec (fuel : ℕ) (fs : List (Frame ι)) (hcmp : TotalOrder cmp)
    (htree : Holds m (m .root) (plug s fs))
    (hasc : Ascending cmp key (inorder (plug s fs))) (hbetween : Between cmp key k fs)
    (htrail : OnTrail tr fs) :
    (s.numNodes ≤ fuel → ∃ out, findLoop cmp key k m fuel (m (linkAt .root fs)) tr = some out) ∧
      ∀ out, findLoop cmp key k m fuel (m (linkAt .root fs)) tr = some out → Search cmp key k
        (plug s fs) out := by
  induction s generalizing fs tr fuel with
  | nil =>
    have hempty : m (linkAt .root fs) = none := (holds_plug.mp htree).2
    have hrun : findLoop cmp key k m fuel none tr = some (none, tr) := by cases fuel <;> rfl
    rw [hempty, hrun]
    refine ⟨fun _ => ⟨_, rfl⟩, ?_⟩
    rintro _ ⟨⟩
    exact Or.inl ⟨rfl, fun y hy => hbetween.ne hcmp hy⟩
  | node n l r ihl ihr =>
    have hnode : m (linkAt .root fs) = some n := (holds_plug.mp htree).2.1
    rw [hnode]
    cases fuel with
    | zero => exact ⟨fun hle => absurd hle (by simp), nofun⟩
    | succ fuel =>
      rw [findLoop]
      split_ifs with hlt hgt
      · have hstep := ihl fuel (⟨.left, n, r⟩ :: fs) htree hasc
          (hbetween.left hcmp hasc hlt) (htrail.enter n .left r)
        exact ⟨fun hle => hstep.1 (by simp at hle; omega), hstep.2⟩
      · have hstep := ihr fuel (⟨.right, n, l⟩ :: fs) htree hasc
          (hbetween.right hcmp hasc hgt) (htrail.enter n .right l)
        exact ⟨fun hle => hstep.1 (by simp at hle; omega), hstep.2⟩
      · refine ⟨fun _ => ⟨_, rfl⟩, ?_⟩
        rintro _ ⟨⟩
        exact Or.inr ⟨n, fs, l, r, rfl, rfl, by omega, htrail⟩

/-! ## Splaying from there -/

variable [DecidableEq ι]

/-- Splaying or not, the tree has the same nodes in the same order. -/
theorem maybeSplay_spec (prng : ℕ → UInt32) (self : PSplay ι) (splayfactor : UInt32) {l r : BinaryTree ι}
    (htrail : OnTrail tr fs) (hholds : Holds self.memory (self.memory .root) (plug (.node x l r) fs))
    (hnodup : (inorder (plug (.node x l r) fs)).Nodup) :
    ∃ m t, maybeSplay prng self tr splayfactor = some { self with memory := m } ∧ Holds m (m .root) t ∧
      inorder t = inorder (plug (.node x l r) fs) ∧ (splayfactor = 0 → m = self.memory) := by
  unfold maybeSplay
  split_ifs with hsplay
  · obtain ⟨m, t, hrun, ht, horder⟩ :=
      splayLoop_spec self.log2 (if tr.dir < 0 then -tr.dir else tr.dir) tr.trail
      splayfactor htrail.depth htrail.ring hholds hnodup
    refine ⟨m, t, ?_, ht, horder, fun hzero => absurd hzero hsplay.1⟩
    rw [psplaySplay, hrun]
    rfl
  · exact ⟨self.memory, _, rfl, hholds, rfl, fun _ => rfl⟩

/-! ## Insert -/

/-- **What the descent comes to**: a node with the same key, or the node is linked where its key belongs. -/
def Descent (cmp : κ → κ → ℤ) (key : ι → κ) (node : ι) (m : LinkMemory ι) (t : BinaryTree ι)
    (out : Option (Trail ι) × LinkMemory ι) : Prop :=
  (out.1 = none ∧ out.2 = m ∧ ∃ y ∈ inorder t, cmp (key node) (key y) = 0) ∨
    ∃ tr fs, out.1 = some tr ∧ out.2 = update m (linkAt .root fs) (some node) ∧ t = plug .nil fs ∧
      Between cmp key (key node) fs ∧ OnTrail tr fs

theorem insertLoop_self (m : LinkMemory ι) : insertLoop cmp key node fuel node tr m = some (some tr, m) := by
  cases fuel <;> simp [insertLoop]

/-- One step of the loop, to either side. -/
def insertStep (cmp : κ → κ → ℤ) (key : ι → κ) (node : ι) (fuel : ℕ) (n : ι) (tr : Trail ι) (m : LinkMemory ι)
    (d : Side) : Option (Option (Trail ι) × LinkMemory ι) :=
  let m := if m (.child n d) = none then update m (.child n d) (some node) else m
  (m (.child n d)).bind fun next => insertLoop cmp key node fuel next (tr.enter n d) m

theorem insertLoop_zero (hne : n ≠ node) : insertLoop cmp key node 0 n tr m = none := by
  rw [insertLoop, if_neg hne]

theorem insertLoop_succ (hne : n ≠ node) : insertLoop cmp key node (fuel + 1) n tr m =
    if cmp (key node) (key n) < 0 then insertStep cmp key node fuel n tr m .left
    else if cmp (key node) (key n) > 0 then insertStep cmp key node fuel n tr m .right
    else some (none, m) := by
  rw [insertLoop, if_neg hne]
  rfl

theorem insertStep_none (hempty : m (.child n d) = none) : insertStep cmp key node fuel n tr m d =
    some (some (tr.enter n d), update m (.child n d) (some node)) := by
  rw [insertStep, if_pos hempty]
  simp only [Function.update_self]
  exact insertLoop_self _

theorem insertStep_some {next : ι} (hnext : m (.child n d) = some next) :
    insertStep cmp key node fuel n tr m d =
    insertLoop cmp key node fuel next (tr.enter n d) m := by
  rw [insertStep, if_neg (by simp [hnext])]
  simp only [hnext, Option.bind_some]

/-- The descent, by induction on the subtree at the position reached. -/
theorem insertLoop_spec (fuel : ℕ) (fs : List (Frame ι)) (hcmp : TotalOrder cmp)
    (hnew : node ∉ inorder (plug s fs))
    (htree : Holds m (m .root) (plug s fs)) (hasc : Ascending cmp key (inorder (plug s fs)))
    (hbetween : Between cmp key (key node) fs) (htrail : OnTrail tr fs) (hn : m (linkAt .root fs) = some n) :
    (s.numNodes ≤ fuel → ∃ out, insertLoop cmp key node fuel n tr m = some out) ∧
      ∀ out, insertLoop cmp key node fuel n tr m = some out → Descent cmp key node m (plug s fs) out := by
  induction s generalizing fs tr fuel n with
  | nil =>
    rw [(holds_plug.mp htree).2] at hn
    exact absurd hn (by simp)
  | node x l r ihl ihr =>
    have hx : m (linkAt .root fs) = some x := (holds_plug.mp htree).2.1
    obtain rfl : x = n := Option.some.inj (hx.symm.trans hn)
    have hne : x ≠ node := fun heq => hnew (mem_plug.mpr (Or.inl (by simp [inorder, heq])))
    cases fuel with
    | zero =>
      rw [insertLoop_zero hne]
      exact ⟨fun hle => absurd hle (by simp), fun out hout => by cases hout⟩
    | succ fuel =>
      -- the step to either side, from what is known about the subtree there
      have hside : ∀ (d : Side) (near far : BinaryTree ι),
          plug (.node x l r) fs = plug near (⟨d, x, far⟩ :: fs) →
          Between cmp key (key node) (⟨d, x, far⟩ :: fs) → near.numNodes ≤ l.numNodes + r.numNodes →
          (∀ {next : ι}, m (.child x d) = some next →
            (near.numNodes ≤ fuel → ∃ out, insertLoop cmp key node fuel next (tr.enter x d) m =
            some out) ∧
              ∀ out, insertLoop cmp key node fuel next (tr.enter x d) m = some out →
                Descent cmp key node m (plug near (⟨d, x, far⟩ :: fs)) out) →
          ((BinaryTree.node x l r).numNodes ≤ fuel + 1 →
            ∃ out, insertStep cmp key node fuel x tr m d = some out) ∧
            ∀ out, insertStep cmp key node fuel x tr m d = some out →
              Descent cmp key node m (plug (.node x l r) fs) out := by
        intro d near far hplug hbetween' hsize ih
        cases hlink : m (.child x d) with
        | none =>
          rw [insertStep_none hlink]
          refine ⟨fun _ => ⟨_, rfl⟩, ?_⟩
          rintro _ ⟨⟩
          have hnil : near = .nil := by
            have hholds := (holds_plug.mp (hplug ▸ htree)).2
            rw [linkAt, hlink] at hholds
            exact hholds.eq_nil
          refine Or.inr ⟨_, ⟨d, x, far⟩ :: fs, rfl, rfl, ?_, hbetween', htrail.enter x d far⟩
          rw [hplug, hnil]
        | some next =>
          rw [insertStep_some hlink, hplug]
          obtain ⟨hreturns, hdescent⟩ := ih hlink
          exact ⟨fun hle => hreturns (by simp at hle; omega), hdescent⟩
      rw [insertLoop_succ hne]
      split_ifs with hlt hgt
      · have hbetween' := hbetween.left hcmp hasc hlt
        exact hside .left l r rfl hbetween' (by omega) fun hlink =>
          ihl fuel (⟨.left, x, r⟩ :: fs) hnew htree hasc hbetween' (htrail.enter x .left r) hlink
      · have hbetween' := hbetween.right hcmp hasc hgt
        exact hside .right r l rfl hbetween' (by omega) fun hlink =>
          ihr fuel (⟨.right, x, l⟩ :: fs) hnew htree hasc hbetween' (htrail.enter x .right l) hlink
      · refine ⟨fun _ => ⟨_, rfl⟩, ?_⟩
        rintro _ ⟨⟩
        exact Or.inl ⟨rfl, rfl, x, mem_plug.mpr (Or.inl (by simp [inorder])), by omega⟩

/-! ## Find and insert

The tree represents a sequence of nodes with ascending keys. `psplay_find` keeps this sequence and
tells the node with the key; `psplay_insert` adds a node unless there is one with the same key. -/

variable {self self' : PSplay ι}
  {l : List ι} {k : κ}
  {node : ι} {fuel : ℕ} {prng : ℕ → UInt32} {splayfactor : UInt32}

/-- **The tree represents these nodes**: they are its nodes in order, with ascending keys; they are
counted, and the link which led to the node found last belongs to one of them, unless it is the one
to the root. -/
structure Represents (cmp : κ → κ → ℤ) (key : ι → κ) (splay : PSplay ι) (l : List ι) : Prop where
  holds : ∃ t, Holds splay.memory (splay.memory .root) t ∧ inorder t = l
  ascending : Ascending cmp key l
  anchored : Anchored .root l splay.found_parent
  count : splay.elem_cnt = l.length

omit [DecidableEq ι] in
theorem numNodes_eq_length (t : BinaryTree ι) : t.numNodes = (inorder t).length := by
  induction t with
  | nil => rfl
  | node n l r ihl ihr =>
    rw [BinaryTree.numNodes, inorder, List.length_append, List.length_cons]
    omega

theorem represents_psplayInit (cmp : κ → κ → ℤ) (key : ι → κ) (m : LinkMemory ι) :
    Represents cmp key (psplayInit m) [] where
  holds := by
    refine ⟨.nil, ?_, rfl⟩
    exact Function.update_self (Link.root : Link ι) none m
  ascending := List.Pairwise.nil
  anchored := Or.inl rfl
  count := rfl

/-- **What find tells**: no node has the key, or the node with the key; without splaying, the link
found leads to it. -/
def Found (cmp : κ → κ → ℤ) (key : ι → κ) (self self' : PSplay ι) (l : List ι) (k : κ) (splayfactor : UInt32)
    (found : Option ι) : Prop :=
  (found = none ∧ self' = self ∧ ∀ y ∈ l, cmp k (key y) ≠ 0) ∨
    ∃ x ∈ l, found = some x ∧ cmp k (key x) = 0 ∧
      (splayfactor = 0 → self'.memory = self.memory ∧ self.memory self'.found_parent = some x)

/-- Find returns with enough fuel, and whatever it returns is right. -/
theorem psplayFind_spec (fuel : ℕ) (prng : ℕ → UInt32) (k : κ) (splayfactor : UInt32) (hcmp : TotalOrder cmp)
    (h : Represents cmp key self l) :
    (l.length ≤ fuel → ∃ out, psplayFind cmp key fuel prng self k splayfactor = some out) ∧
      ∀ found self', psplayFind cmp key fuel prng self k splayfactor = some (found, self') →
        Represents cmp key self' l ∧ Found cmp key self self' l k splayfactor found := by
  obtain ⟨t, hholds, rfl⟩ := h.holds
  obtain ⟨hreturns, hsearch⟩ := findLoop_spec fuel [] (k := k) (s := t) hcmp hholds h.ascending
    between_nil onTrail_start
  rw [numNodes_eq_length] at hreturns
  unfold psplayFind
  cases hloop : findLoop cmp key k self.memory fuel (self.memory .root) Trail.start with
  | none =>
    refine ⟨fun hle => ?_, nofun⟩
    obtain ⟨out, hout⟩ := hreturns hle
    exact absurd (hout.symm.trans hloop) (by simp)
  | some out =>
    obtain ⟨found, tr⟩ := out
    rcases hsearch _ hloop with ⟨hnone, habsent⟩ | ⟨x, fs, l, r, hfound, hplug, hkey, htrail⟩
    · obtain rfl : found = none := hnone
      refine ⟨fun _ => ⟨_, rfl⟩, ?_⟩
      rintro _ _ ⟨⟩
      exact ⟨h, Or.inl ⟨rfl, rfl, habsent⟩⟩
    · obtain rfl : found = some x := hfound
      replace htrail : OnTrail tr fs := htrail
      subst hplug
      obtain ⟨m, t, hsplay, ht, horder, hkept⟩ := maybeSplay_spec prng
        { self with found_parent := linkAt .root fs } splayfactor htrail hholds (h.ascending.nodup hcmp)
      have hx : x ∈ inorder (plug (.node x l r) fs) := mem_plug.mpr (Or.inl (by simp [inorder]))
      simp only [Option.bind_eq_bind, Option.bind_some, htrail.link, hsplay]
      refine ⟨fun _ => ⟨_, rfl⟩, ?_⟩
      rintro _ _ ⟨⟩
      refine ⟨⟨⟨t, ht, horder⟩, h.ascending, ?_, h.count⟩,
        Or.inr ⟨x, hx, rfl, hkey, fun hzero => ⟨hkept hzero, ?_⟩⟩⟩
      · exact (anchored_linkAt .root fs).mono fun y hy => mem_plug.mpr (Or.inr hy)
      · exact (holds_plug.mp hholds).2.1

/-- **What insert does**: nothing when there is a node with the same key; otherwise there is one more node. -/
def Inserted (cmp : κ → κ → ℤ) (key : ι → κ) (self self' : PSplay ι) (l : List ι) (node : ι)
    (res : Option ι) : Prop :=
  (res = none ∧ self' = self ∧ ∃ y ∈ l, cmp (key node) (key y) = 0) ∨
    (res = some node ∧ (∀ y ∈ l, cmp (key node) (key y) ≠ 0) ∧
      ∃ l', Represents cmp key self' l' ∧ l'.Perm (node :: l))

theorem holds_attached {m : LinkMemory ι} {fs : List (Frame ι)} (hholds : Holds m (m .root) (plug .nil fs))
    (hnodup : (inorder (plug .nil fs)).Nodup) (hnew : node ∉ inorder (plug .nil fs))
    (hfresh : ∀ d, m (.child node d) = none) : Holds (update m (linkAt .root fs) (some node))
    (update m (linkAt .root fs) (some node) .root) (plug (.node node .nil .nil) fs) := by
  obtain ⟨hframes, -⟩ := holds_plug.mp hholds
  have haround : node ∉ around fs := fun hmem => hnew (mem_plug.mpr (Or.inr hmem))
  have hnodup' : (around fs).Nodup := by
    rw [(inorder_plug_perm _ _).nodup_iff] at hnodup
    exact hnodup
  have hlinks : ∀ d, update m (linkAt .root fs) (some node) (.child node d) = none := by
    intro d
    rw [Function.update_of_ne (child_ne_linkAt haround (by simp)), hfresh d]
  rw [holds_plug]
  refine ⟨hframes.update hnodup' (fun _ _ _ => by simp) rfl fun _ _ _ => rfl, ?_⟩
  exact ⟨Function.update_self .., hlinks .left, hlinks .right⟩

theorem linkNode_spec (fuel : ℕ) (hcmp : TotalOrder cmp) {m : LinkMemory ι} {t : BinaryTree ι}
    (hnew : node ∉ inorder t)
    (hholds : Holds m (m .root) t) (hasc : Ascending cmp key (inorder t)) :
    ((inorder t).length ≤ fuel → ∃ out, linkNode cmp key fuel m node = some out) ∧
      ∀ out, linkNode cmp key fuel m node = some out → Descent cmp key node m t out := by
  unfold linkNode
  cases hroot : m .root with
  | none =>
    rw [hroot] at hholds
    obtain rfl := hholds.eq_nil
    refine ⟨fun _ => ⟨_, rfl⟩, ?_⟩
    rintro _ ⟨⟩
    exact Or.inr ⟨_, [], rfl, rfl, rfl, between_nil, onTrail_start⟩
  | some n =>
    have hspec := insertLoop_spec fuel [] (s := t) hcmp hnew hholds hasc between_nil onTrail_start hroot
    rw [numNodes_eq_length] at hspec
    exact hspec

/-- Insert returns with enough fuel, and whatever it returns is right. -/
theorem psplayInsert_spec (fuel : ℕ) (prng : ℕ → UInt32) (splayfactor : UInt32) (hcmp : TotalOrder cmp)
    (h : Represents cmp key self l) (hnew : node ∉ l)
    (hfresh : ∀ d, self.memory (.child node d) = none) :
    (l.length ≤ fuel → ∃ out, psplayInsert cmp key fuel prng self node splayfactor = some out) ∧
      ∀ res self', psplayInsert cmp key fuel prng self node splayfactor = some (res, self') →
        Inserted cmp key self self' l node res := by
  obtain ⟨t, hholds, rfl⟩ := h.holds
  obtain ⟨hreturns, hspec⟩ := linkNode_spec fuel hcmp hnew hholds h.ascending
  unfold psplayInsert
  cases hlink : linkNode cmp key fuel self.memory node with
  | none =>
    refine ⟨fun hle => ?_, nofun⟩
    obtain ⟨out, hout⟩ := hreturns hle
    exact absurd (hout.symm.trans hlink) (by simp)
  | some out =>
    obtain ⟨trail, m⟩ := out
    rcases hspec _ hlink with ⟨hnone, hm, hequal⟩ | ⟨tr, fs, htr, hm, rfl, hbetween, htrail⟩
    · obtain rfl : trail = none := hnone
      obtain rfl : m = self.memory := hm
      refine ⟨fun _ => ⟨_, rfl⟩, ?_⟩
      rintro _ _ ⟨⟩
      exact Or.inl ⟨rfl, rfl, hequal⟩
    · obtain rfl : trail = some tr := htr
      obtain rfl : m = update self.memory (linkAt .root fs) (some node) := hm
      have hasc := hbetween.ascending hcmp h.ascending
      have hattached := holds_attached hholds (h.ascending.nodup hcmp) hnew hfresh
      obtain ⟨m, t, hsplay, ht, horder, -⟩ := maybeSplay_spec prng
        (countUp { self with memory := update self.memory (linkAt .root fs) (some node) })
        splayfactor htrail
        hattached (hasc.nodup hcmp)
      have hperm : (inorder t).Perm (node :: inorder (plug .nil fs)) := by
        rw [horder]
        exact (inorder_plug_perm _ _).trans ((inorder_plug_perm .nil fs).symm.cons node)
      simp only [Option.bind_eq_bind, Option.bind_some, hsplay]
      refine ⟨fun _ => ⟨_, rfl⟩, ?_⟩
      rintro _ _ ⟨⟩
      refine Or.inr ⟨rfl, fun y hy => hbetween.ne hcmp hy, _, ⟨⟨t, ht, rfl⟩, ?_, ?_, ?_⟩, hperm⟩
      · rw [horder]
        exact hasc
      · exact h.anchored.mono fun y hy => hperm.mem_iff.mpr (List.mem_cons_of_mem _ hy)
      · rw [hperm.length_eq, List.length_cons, ← h.count]
        rfl

end Lumiera.Lib.Psplay
