import Lumiera.Lib.PSplayOperations

/-! # Remove

The node is taken off the link which leads to it. When it has two subtrees, the neighbour in order
which is in one of these takes its place. The link is the one which led to the node found last, and
when this leads somewhere else by now, the node is searched. -/

namespace Lumiera.Lib.Psplay

open Function List LinkedTree SearchTree
open Function (update)

variable {ι κ : Type*} {m : LinkMemory ι} {fs cs : List (Frame ι)} {d : Side} {base : Link ι} {node i : ι}
  {a near far : BinaryTree ι}

/-! ## The outermost node -/

/-- **The way along one side.** -/
def Along (d : Side) (cs : List (Frame ι)) : Prop := ∀ f ∈ cs, f.side = d

theorem Along.after_eq_nil (h : Along .right cs) : after cs = [] := by
  induction cs with
  | nil => rfl
  | cons f cs ih =>
    obtain ⟨side, n, sibling⟩ := f
    obtain rfl : side = .right := h _ mem_cons_self
    exact ih fun f hf => h f (mem_cons_of_mem _ hf)

theorem Along.before_eq_nil (h : Along .left cs) : before cs = [] := by
  induction cs with
  | nil => rfl
  | cons f cs ih =>
    obtain ⟨side, n, sibling⟩ := f
    obtain rfl : side = .left := h _ mem_cons_self
    exact ih fun f hf => h f (mem_cons_of_mem _ hf)

/-- The parent on the way. -/
def parentOn (cs : List (Frame ι)) : Option ι := cs.head?.map Frame.node

variable {iparent : Option ι}

theorem outermost_none {fuel : ℕ} (h : m (.child i d) = none) : outermost m d fuel iparent i = some (iparent, i) := by
  cases fuel <;> rw [outermost, h]

theorem outermost_zero {next : ι} (h : m (.child i d) = some next) : outermost m d 0 iparent i = none := by
  rw [outermost, h]

theorem outermost_succ {fuel : ℕ} {next : ι} (h : m (.child i d) = some next) :
    outermost m d (fuel + 1) iparent i = outermost m d fuel (some i) next := by
  rw [outermost, h]

/-- The outermost node has nothing at this side. -/
theorem outermost_spec (fuel : ℕ) (s : BinaryTree ι) (cs : List (Frame ι)) {i : ι}
    (hholds : Holds m (m base) (plug s cs))
    (halong : Along d cs) (hi : m (linkAt base cs) = some i) :
    (s.numNodes ≤ fuel + 1 → ∃ out, outermost m d fuel (parentOn cs) i = some out) ∧
      ∀ iparent i', outermost m d fuel (parentOn cs) i = some (iparent, i') →
        ∃ cs' a, Along d cs' ∧ plug s cs = plug (join d i' .nil a) cs' ∧ iparent = parentOn cs' := by
  obtain ⟨l, r, rfl⟩ := (hi ▸ (holds_plug.mp hholds).2).exists_node
  obtain ⟨near, far, hjoin⟩ := exists_join d i l r
  have hsize : near.numNodes < (BinaryTree.node i l r).numNodes := by
    rw [hjoin]
    cases d <;> simp only [join, BinaryTree.numNodes] <;> omega
  rw [hjoin] at hholds ⊢
  have hnear := (holds_join.mp (holds_plug.mp hholds).2).2.1
  cases hnext : m (.child i d) with
  | none =>
    rw [hnext] at hnear
    obtain rfl := hnear.eq_nil
    rw [outermost_none hnext]
    refine ⟨fun _ => ⟨_, rfl⟩, ?_⟩
    rintro _ _ ⟨⟩
    exact ⟨cs, far, halong, rfl, rfl⟩
  | some next =>
    rw [hnext] at hnear
    have hpositive : 0 < near.numNodes := by
      obtain ⟨l', r', hnode⟩ := hnear.exists_node
      simp [hnode]
    cases fuel with
    | zero =>
      rw [outermost_zero hnext, ← hjoin]
      exact ⟨fun hle => by omega, fun _ _ hout => by cases hout⟩
    | succ fuel =>
      have halong' : Along d (⟨d, i, far⟩ :: cs) := by
        intro f hf
        rcases mem_cons.mp hf with rfl | hf
        · rfl
        · exact halong f hf
      obtain ⟨hreturns, hresult⟩ := outermost_spec fuel near (⟨d, i, far⟩ :: cs) hholds halong' hnext
      rw [outermost_succ hnext, ← hjoin]
      refine ⟨fun hle => hreturns (by omega), ?_⟩
      rw [hjoin]
      exact hresult

theorem exists_top (hframes : HoldsFrames m base cs) (hne : cs ≠ []) : ∃ x ∈ around cs, m base = some x := by
  induction cs with
  | nil => exact absurd rfl hne
  | cons f cs ih =>
    by_cases hcs : cs = []
    · subst hcs
      exact ⟨f.node, mem_around_cons.mpr (Or.inl rfl), hframes.1⟩
    · obtain ⟨x, hx, hbase⟩ := ih hframes.2.2 hcs
      exact ⟨x, mem_around_cons.mpr (Or.inr (Or.inr hx)), hbase⟩

theorem mem_of_parentOn {q : ι} (h : parentOn cs = some q) : q ∈ around cs := by
  cases cs with
  | nil => exact absurd h nofun
  | cons f cs =>
    obtain rfl : f.node = q := Option.some.inj h
    exact mem_around_cons.mpr (Or.inl rfl)

/-- The order is kept: what was below the node is now around the neighbour. -/
theorem inorder_replaced (halong : Along d.flip cs) :
    inorder (join d i (plug a cs) far) =
      match d with
      | .left => inorder (plug (join d.flip i .nil a) cs) ++ inorder far
      | .right => inorder far ++ inorder (plug (join d.flip i .nil a) cs) := by
  cases d with
  | left =>
    have hafter := Along.after_eq_nil halong
    simp [join, Side.flip, inorder, inorder_plug, hafter]
  | right =>
    have hbefore := Along.before_eq_nil halong
    simp [join, Side.flip, inorder, inorder_plug, hbefore]

/-! ## The neighbour takes the place -/

variable [DecidableEq ι] {r : Link ι} {iparent : Option ι}

theorem handOver_other {L : Link ι} (hparent : ∀ q, iparent = some q → L ≠ .child q d.flip) :
    handOver d iparent i m L = m L := by
  cases iparent with
  | none => rfl
  | some q => exact update_of_ne (hparent q rfl) ..

theorem replaceBy_other {L : Link ι} (hr : L ≠ r) (hi : ∀ e, L ≠ .child i e)
    (hparent : ∀ q, iparent = some q → L ≠ .child q d.flip) : replaceBy d r node iparent i m L = m L := by
  unfold replaceBy
  rw [update_of_ne hr, update_of_ne (hi _)]
  split_ifs
  · rw [update_of_ne (hi _), handOver_other hparent]
  · exact handOver_other hparent

theorem replaceBy_neighbour (hr : ∀ e, r ≠ .child i e) (hnode : node ≠ i)
    (hparent : ∀ q, iparent = some q → q ≠ node ∧ q ≠ i) :
    replaceBy d r node iparent i m (.child i d.flip) = m (.child node d.flip) ∧
      replaceBy d r node iparent i m (.child i d) =
        if m (.child node d) ≠ some i then m (.child node d) else m (.child i d) := by
  have hkept : ∀ y, (∀ q, iparent = some q → q ≠ y) → ∀ e, handOver d iparent i m (.child y e) = m
      (.child y e) := by
    intro y hy e
    apply handOver_other
    exact fun q hq heq => hy q hq (Link.child.inj heq).1.symm
  have hkeptNode := hkept node fun q hq => (hparent q hq).1
  have hkeptNeighbour := hkept i fun q hq => (hparent q hq).2
  have hne : ∀ e, (Link.child node e) ≠ .child i d := fun e heq => hnode (Link.child.inj heq).1
  have hside : Link.child i d ≠ .child i d.flip := fun heq => Side.ne_flip d (Link.child.inj heq).2
  constructor
  · unfold replaceBy
    rw [update_of_ne (hr _).symm, update_self]
    split_ifs
    · rw [update_of_ne (hne _), hkeptNode]
    · rw [hkeptNode]
  · unfold replaceBy
    rw [update_of_ne (hr _).symm, update_of_ne hside, hkeptNode]
    split_ifs
    · rw [update_self]
    · rw [hkeptNeighbour]

theorem replaceBy_parent {q : ι} (hr : .child q d.flip ≠ r) (hq : q ≠ i) :
    replaceBy d r node (some q) i m (.child q d.flip) = m (.child i d) := by
  have hne : ∀ e, Link.child q d.flip ≠ .child i e := fun e heq => hq (Link.child.inj heq).1
  unfold replaceBy
  rw [update_of_ne hr, update_of_ne (hne _)]
  split_ifs
  · rw [update_of_ne (hne _), handOver, update_self]
  · rw [handOver, update_self]

theorem nodup_of_plug (hnodup : (inorder (plug (join d node (plug (join d.flip i .nil a) cs) far) fs)).Nodup) :
    (node :: i :: ((inorder a ++ around cs) ++ inorder far ++ around fs)).Nodup := by
  refine List.Perm.nodup ?_ hnodup
  rw [perm_iff_count]
  intro x
  rw [(inorder_plug_perm _ fs).count_eq]
  cases d <;>
    simp only [count_append, count_cons, (inorder_plug_perm _ cs).count_eq, inorder_join, Side.flip,
      inorder, count_nil] <;>
    omega

/-- The neighbour takes the place of the node. -/
theorem holds_replaceBy (halong : Along d.flip cs)
    (hholds : Holds m (m .root) (plug (join d node (plug (join d.flip i .nil a) cs) far) fs))
    (hnodup : (inorder (plug (join d node (plug (join d.flip i .nil a) cs) far) fs)).Nodup) :
    Holds (replaceBy d (linkAt .root fs) node (parentOn cs) i m)
      (replaceBy d (linkAt .root fs) node (parentOn cs) i m .root) (plug (join d i (plug a cs) far) fs) := by
  have hdiffer := nodup_of_plug hnodup
  simp only [nodup_cons, nodup_append, mem_cons, mem_append, not_or] at hdiffer
  obtain ⟨⟨hnodeI, ⟨⟨hnodeA, hnodeCs⟩, hnodeFar⟩, hnodeFs⟩, ⟨⟨⟨hiA, hiCs⟩, hiFar⟩, hiFs⟩,
    ⟨⟨hnodupA, hnodupCs, hACs⟩, hnodupFar, hNearFar⟩, hnodupFs, hSubFs⟩ := hdiffer
  obtain ⟨hframes, hsub⟩ := holds_plug.mp hholds
  obtain ⟨hr, hnear, hfar⟩ := holds_join.mp hsub
  obtain ⟨hcs, hi⟩ := holds_plug.mp hnear
  obtain ⟨hlink, -, ha⟩ := holds_join.mp hi
  rw [Side.flip_flip] at ha
  have hforeign : ∀ y, y ∉ around fs → ∀ e, Link.child y e ≠ linkAt .root fs := fun y hy e =>
    child_ne_linkAt hy (by simp)
  have hparent : ∀ q, parentOn cs = some q → q ≠ node ∧ q ≠ i := by
    intro q hq
    have hmem := mem_of_parentOn hq
    exact ⟨fun heq => hnodeCs (heq ▸ hmem), fun heq => hiCs (heq ▸ hmem)⟩
  -- links of all nodes but the neighbour and its parent, except for the one which leads to the node
  have hother : ∀ y, y ≠ i → (∀ q, parentOn cs = some q → y ≠ q) → ∀ e, Link.child y e ≠ linkAt .root fs →
      replaceBy d (linkAt .root fs) node (parentOn cs) i m (.child y e) = m (.child y e) := by
    intro y hy hq e hne
    apply replaceBy_other hne
    · exact fun e' heq => hy (Link.child.inj heq).1
    · exact fun q hparent heq => hq q hparent (Link.child.inj heq).1
  obtain ⟨hfarLink, hnearLink⟩ := replaceBy_neighbour (m := m) (d := d)
    (fun e => (hforeign i hiFs e).symm) hnodeI hparent
  rw [holds_plug, holds_join, hfarLink, hnearLink]
  refine ⟨?_, ?_, ?_, ?_⟩
  · apply hframes.congr hnodupFs
    · intro hne
      apply replaceBy_other
      · cases fs with
        | nil => exact absurd rfl hne
        | cons f fs => exact fun heq => by cases heq
      · exact fun e heq => by cases heq
      · exact fun q _ heq => by cases heq
    · intro y hy e hne
      apply hother y (fun heq => hiFs (heq ▸ hy)) (fun q hq heq => ?_) e hne
      exact hSubFs q (Or.inl (Or.inr (mem_of_parentOn hq))) y hy heq.symm
  · exact update_self ..
  · by_cases hcsNil : cs = []
    · -- the neighbour is the child of the node
      subst hcsNil
      rw [linkAt] at hlink
      rw [if_neg (not_not.mpr hlink)]
      apply ha.congr
      intro y hy e
      exact hother y (fun heq => hiA (heq ▸ hy)) (fun q hq => by cases hq) e
        (hforeign y (fun hmem => hSubFs y (Or.inl (Or.inl hy)) y hmem rfl) e)
    · obtain ⟨x, hx, htop⟩ := exists_top hcs hcsNil
      have hne : m (.child node d) ≠ some i := by
        rw [htop]
        exact fun heq => hiCs (Option.some.inj heq ▸ hx)
      rw [if_pos hne]
      obtain ⟨f, cs, rfl⟩ := exists_cons_of_ne_nil hcsNil
      have hside : f.side = d.flip := halong f mem_cons_self
      have hf : f.node ∈ around (f :: cs) := mem_around_cons.mpr (Or.inl rfl)
      -- only the parent's link has changed there
      have hfirst : Holds (update m (linkAt (.child node d) (f :: cs)) (m (.child i d))) (m (.child node d))
          (plug a (f :: cs)) := by
        have hne : Link.child node d ≠ linkAt (.child node d) (f :: cs) := by
          intro heq
          rw [(Link.child.inj heq).1] at hnodeCs
          exact hnodeCs hf
        have hbase : update m (linkAt (.child node d) (f :: cs)) (m (.child i d)) (.child node d) =
            m (.child node d) := update_of_ne hne ..
        rw [← hbase, holds_plug]
        refine ⟨hcs.update hnodupCs (fun x hx e heq => hnodeCs ((Link.child.inj heq).1 ▸ hx)) rfl
          fun _ _ _ => rfl, ?_⟩
        rw [update_self]
        exact ha.update (fun _ _ _ => rfl) fun y hy e heq => hACs y hy f.node hf (Link.child.inj heq).1
      apply hfirst.congr
      intro y hy e
      rw [linkAt, hside]
      by_cases hlinkY : Link.child y e = .child f.node d.flip
      · rw [hlinkY, update_self]
        refine replaceBy_parent (hforeign _ (fun hmem => ?_) _) (hparent _ rfl).2
        exact hSubFs f.node (Or.inl (Or.inr hf)) f.node hmem rfl
      · rw [update_of_ne hlinkY]
        have hySub := mem_plug.mp hy
        have hyI : y ≠ i := by
          rintro rfl
          exact hySub.elim hiA hiCs
        apply replaceBy_other
        · exact hforeign y (fun hmem => hSubFs y (Or.inl hySub) y hmem rfl) e
        · exact fun e' heq => hyI (Link.child.inj heq).1
        · intro q hq
          obtain rfl : f.node = q := Option.some.inj hq
          exact hlinkY
  · apply hfar.congr
    intro y hy e
    apply hother y (fun heq => hiFar (heq ▸ hy)) (fun q hq heq => ?_) e
    · exact hforeign y (fun hmem => hSubFs y (Or.inr hy) y hmem rfl) e
    · exact hNearFar q (Or.inr (mem_of_parentOn hq)) y hy heq.symm

/-! ## Taking a node off its link -/

theorem holds_promoted {s : BinaryTree ι} {o : Option ι} (hframes : HoldsFrames m .root fs) (hs : Holds m o s)
    (hnodup : (around fs).Nodup) (hapart : ∀ y ∈ inorder s, y ∉ around fs) :
    Holds (update m (linkAt .root fs) o) (update m (linkAt .root fs) o .root) (plug s fs) := by
  rw [holds_plug, update_self]
  refine ⟨hframes.update hnodup (fun _ _ _ => nofun) rfl fun _ _ _ => rfl, ?_⟩
  exact hs.update (fun _ _ _ => rfl) fun y hy e => child_ne_linkAt (hapart y hy) nofun

/-- A node with two subtrees is replaced. -/
theorem replaceNode_spec (fuel : ℕ) (d : Side) {sl sr : BinaryTree ι}
    (hholds : Holds m (m .root) (plug (.node node sl sr) fs))
    (hnodup : (inorder (plug (.node node sl sr) fs)).Nodup) (hoccupied : m (.child node d) ≠ none) :
    ((inorder (plug (.node node sl sr) fs)).length ≤ fuel →
      ∃ m', replaceNode fuel d (linkAt .root fs) node m = some m') ∧
      ∀ m', replaceNode fuel d (linkAt .root fs) node m = some m' →
        ∃ t, Holds m' (m' .root) t ∧ inorder t = before fs ++ (inorder sl ++ inorder sr) ++ after fs := by
  obtain ⟨first, hfirst⟩ := Option.ne_none_iff_exists'.mp hoccupied
  obtain ⟨near, far, hjoin⟩ := exists_join d node sl sr
  have hnear := (holds_join.mp (hjoin ▸ (holds_plug.mp hholds).2)).2.1
  obtain ⟨hreturns, hresult⟩ := outermost_spec (d := d.flip) fuel near [] hnear
      (fun _ hf => absurd hf not_mem_nil)
    hfirst
  have hsize : near.numNodes ≤ (inorder (plug (.node node sl sr) fs)).length := by
    rw [numNodes_eq_length, (inorder_plug_perm _ fs).length_eq, hjoin, inorder_join]
    cases d
    · simp
    · simp
      omega
  unfold replaceNode
  rw [hfirst]
  cases hloop : outermost m d.flip fuel none first with
  | none =>
    refine ⟨fun hle => ?_, ?_⟩
    · obtain ⟨out, hout⟩ := hreturns (by omega)
      exact absurd (hout.symm.trans hloop) (by simp)
    · simp [hloop]
  | some out =>
    obtain ⟨iparent, i⟩ := out
    obtain ⟨cs, a, halong, hplug, rfl⟩ := hresult iparent i hloop
    subst hplug
    simp only [Option.bind_eq_bind, Option.bind_some, hloop]
    refine ⟨fun _ => ⟨_, rfl⟩, ?_⟩
    rintro _ ⟨⟩
    rw [hjoin] at hholds hnodup
    refine ⟨_, holds_replaceBy halong hholds hnodup, ?_⟩
    rw [inorder_plug, inorder_replaced halong]
    cases d with
    | left =>
      obtain ⟨-, rfl, rfl⟩ := BinaryTree.node.inj hjoin
      rfl
    | right =>
      obtain ⟨-, rfl, rfl⟩ := BinaryTree.node.inj hjoin
      rfl

/-- The node is gone, and the order of the others is kept. -/
theorem unlink_spec (fuel : ℕ) (prng : ℕ → UInt32) {sl sr : BinaryTree ι}
    (hholds : Holds m (m .root) (plug (.node node sl sr) fs))
    (hnodup : (inorder (plug (.node node sl sr) fs)).Nodup) :
    ((inorder (plug (.node node sl sr) fs)).length ≤ fuel →
      ∃ m', unlink fuel prng (linkAt .root fs) node m = some m') ∧
      ∀ m', unlink fuel prng (linkAt .root fs) node m = some m' →
        ∃ t, Holds m' (m' .root) t ∧ inorder t = before fs ++ (inorder sl ++ inorder sr) ++ after fs := by
  obtain ⟨hframes, -, hsl, hsr⟩ := holds_plug.mp hholds
  have hdiffer := (inorder_plug_perm _ fs).nodup hnodup
  rw [nodup_append] at hdiffer
  obtain ⟨-, hnodupFs, hapart⟩ := hdiffer
  have hapartLeft : ∀ y ∈ inorder sl, y ∉ around fs :=
      fun y hy hmem => hapart y (by simp [inorder, hy]) y hmem rfl
  have hapartRight : ∀ y ∈ inorder sr, y ∉ around fs :=
      fun y hy hmem => hapart y (by simp [inorder, hy]) y hmem rfl
  unfold unlink
  by_cases hleft : m (.child node .left) = none
  · rw [if_pos hleft]
    rw [hleft] at hsl
    obtain rfl := hsl.eq_nil
    refine ⟨fun _ => ⟨_, rfl⟩, ?_⟩
    rintro _ ⟨⟩
    refine ⟨_, holds_promoted hframes hsr hnodupFs hapartRight, ?_⟩
    rw [inorder_plug, inorder, nil_append]
  · rw [if_neg hleft]
    by_cases hright : m (.child node .right) = none
    · rw [if_pos hright]
      rw [hright] at hsr
      obtain rfl := hsr.eq_nil
      refine ⟨fun _ => ⟨_, rfl⟩, ?_⟩
      rintro _ ⟨⟩
      refine ⟨_, holds_promoted hframes hsl hnodupFs hapartLeft, ?_⟩
      rw [inorder_plug, inorder.eq_1, append_nil]
    · rw [if_neg hright]
      exact replaceNode_spec fuel _ hholds hnodup (by split_ifs <;> assumption)

/-! ## Finding the link -/

section Keys

variable {cmp : κ → κ → ℤ} {key : ι → κ} {self self' : PSplay ι} {l : List ι} {fuel findFuel : ℕ}
  {prng : ℕ → UInt32}

/-- **What the search for the link comes to**: no node has the key, or the link leads to the node. -/
def Located (cmp : κ → κ → ℤ) (key : ι → κ) (self : PSplay ι) (l : List ι) (node : ι)
    (link : Option (Link ι)) : Prop :=
  (link = none ∧ ∀ y ∈ l, cmp (key node) (key y) ≠ 0) ∨
    (link = some self.found_parent ∧ self.memory self.found_parent = some node)

theorem locate_hit (hlink : self.memory self.found_parent = some node) :
    locate cmp key findFuel prng fuel self node = some (self, some self.found_parent) := by
  cases fuel <;> rw [locate, if_pos hlink]

theorem locate_zero (hlink : self.memory self.found_parent ≠ some node) :
    locate cmp key findFuel prng 0 self node = none := by
  rw [locate, if_neg hlink]

theorem locate_succ (hlink : self.memory self.found_parent ≠ some node) :
    locate cmp key findFuel prng (fuel + 1) self node =
      (psplayFind cmp key findFuel prng self (key node) 0).bind fun out =>
        match out.1 with
        | none => some (out.2, none)
        | some _ => locate cmp key findFuel prng fuel out.2 node := by
  rw [locate, if_neg hlink]
  rfl

/-- Whatever the search for the link returns is right: **by induction on the rounds**. -/
theorem locate_right (hcmp : TotalOrder cmp) (h : Represents cmp key self l) {link : Option (Link ι)}
    (hrun : locate cmp key findFuel prng fuel self node = some (self', link)) :
    Represents cmp key self' l ∧ Located cmp key self' l node link := by
  induction fuel generalizing self with
  | zero =>
    by_cases hhit : self.memory self.found_parent = some node
    · rw [locate_hit hhit] at hrun
      cases hrun
      exact ⟨h, Or.inr ⟨rfl, hhit⟩⟩
    · rw [locate_zero hhit] at hrun
      cases hrun
  | succ fuel ih =>
    by_cases hhit : self.memory self.found_parent = some node
    · rw [locate_hit hhit] at hrun
      cases hrun
      exact ⟨h, Or.inr ⟨rfl, hhit⟩⟩
    · rw [locate_succ hhit] at hrun
      obtain ⟨⟨found, self₁⟩, hfind, hrest⟩ := Option.bind_eq_some_iff.mp hrun
      obtain ⟨hrepresents, hfound⟩ := (psplayFind_spec _ _ _ _ hcmp h).2 found self₁ hfind
      rcases hfound with ⟨rfl, rfl, habsent⟩ | ⟨x, -, rfl, -⟩
      · cases hrest
        exact ⟨hrepresents, Or.inl ⟨rfl, habsent⟩⟩
      · exact ih hrepresents hrest

/-- The search for the link returns when the node is in the tree, or when its key is not. -/
theorem locate_returns (fuel : ℕ) (prng : ℕ → UInt32) (hcmp : TotalOrder cmp) (h : Represents cmp key self l)
    (hnode : node ∈ l ∨ ∀ y ∈ l, cmp (key node) (key y) ≠ 0) (hfind : l.length ≤ findFuel) (hfuel : 0 < fuel) : ∃ out,
    locate cmp key findFuel prng fuel self node = some out := by
  by_cases hhit : self.memory self.found_parent = some node
  · exact ⟨_, locate_hit hhit⟩
  · obtain ⟨fuel, rfl⟩ : ∃ n, fuel = n + 1 := ⟨fuel - 1, by omega⟩
    obtain ⟨hreturns, hright⟩ := psplayFind_spec findFuel prng (key node) 0 hcmp h
    obtain ⟨⟨found, self₁⟩, hrun⟩ := hreturns hfind
    rw [locate_succ hhit, hrun]
    rcases (hright found self₁ hrun).2 with ⟨rfl, -, -⟩ | ⟨x, hx, rfl, hkey, hlink⟩
    · exact ⟨_, rfl⟩
    · -- the key is there, so that the node is, and the link found leads to it
      have hmem : node ∈ l := hnode.resolve_right fun habsent => habsent x hx hkey
      obtain rfl : x = node := h.ascending.unique hcmp hx hmem hkey (hcmp.refl _)
      obtain ⟨hmemory, hfoundLink⟩ := hlink rfl
      refine ⟨_, locate_hit ?_⟩
      rw [hmemory]
      exact hfoundLink

/-! ## Remove -/

/-- **What remove does**: nothing when there is no node or its key is not in the tree; otherwise the
node is unlinked, through a link which leads to it and belongs to another node of the tree, unless
it is the one to the root. -/
def Removed (cmp : κ → κ → ℤ) (key : ι → κ) (fuel : ℕ) (prng : ℕ → UInt32) (self self' : PSplay ι)
    (l : List ι)
    (node res : Option ι) : Prop :=
  (res = none ∧ Represents cmp key self' l ∧ ∀ x, node = some x → ∀ y ∈ l, cmp (key x) (key y) ≠ 0) ∨
    ∃ x before after self₁ m, node = some x ∧ res = some x ∧ l = before ++ x :: after ∧
      locate cmp key fuel prng fuel self x = some (self₁, some self₁.found_parent) ∧
      self₁.memory self₁.found_parent = some x ∧ Anchored .root (before ++ after) self₁.found_parent ∧
      unlink fuel prng self₁.found_parent x self₁.memory = some m ∧
      self' = countDown { self₁ with memory := m } ∧ Represents cmp key self' (before ++ after)

/-- Unlinking through this link leaves the other nodes in order. -/
theorem removed_of_located (fuel : ℕ) (prng : ℕ → UInt32) (hcmp : TotalOrder cmp)
    (h : Represents cmp key self l) {x : ι}
    (hlink : self.memory self.found_parent = some x) :
    ∃ before after, l = before ++ x :: after ∧ Anchored .root (before ++ after) self.found_parent ∧
      (l.length ≤ fuel → ∃ m, unlink fuel prng self.found_parent x self.memory = some m) ∧
      ∀ m, unlink fuel prng self.found_parent x self.memory = some m →
        Represents cmp key (countDown { self with memory := m }) (before ++ after) := by
  obtain ⟨t, hholds, rfl⟩ := h.holds
  obtain ⟨fs, s, rfl, hposition⟩ := exists_position h.anchored
  rw [← hposition] at hlink
  obtain ⟨sl, sr, rfl⟩ := (hlink ▸ (holds_plug.mp hholds).2).exists_node
  have hsplit : inorder (plug (.node x sl sr) fs) =
      (before fs ++ inorder sl) ++ x :: (inorder sr ++ after fs) := by
    rw [inorder_plug, inorder]
    simp
  have hanchored : Anchored .root ((before fs ++ inorder sl) ++ (inorder sr ++ after fs))
      self.found_parent := by
    rw [← hposition]
    apply (anchored_linkAt .root fs).mono
    intro y hy
    rw [around, mem_append] at hy
    simp only [mem_append]
    tauto
  obtain ⟨hreturns, hright⟩ := unlink_spec fuel prng hholds (h.ascending.nodup hcmp)
  rw [hposition] at hreturns hright
  refine ⟨_, _, hsplit, hanchored, hreturns, fun m hm => ?_⟩
  obtain ⟨t, ht, horder⟩ := hright m hm
  have hasc := h.ascending
  have hcount := h.count
  rw [hsplit] at hasc hcount
  refine ⟨⟨t, ht, ?_⟩, ?_, hanchored, ?_⟩
  · rw [horder]
    simp
  · exact hasc.sublist ((sublist_cons_self _ _).append_left _)
  · have hless : self.elem_cnt - 1 = ((before fs ++ inorder sl) ++ (inorder sr ++ after fs)).length := by
      rw [hcount]
      simp
      omega
    exact hless

theorem psplayRemove_some (x : ι) : psplayRemove cmp key fuel prng self (some x) =
    (locate cmp key fuel prng fuel self x).bind fun out =>
      match out.2 with
      | none => some (none, out.1)
      | some r => (unlink fuel prng r x out.1.memory).bind fun m =>
        some (some x, countDown { out.1 with memory := m }) := rfl

/-- Remove returns when the node is in the tree or its key is not, and whatever it returns is right. -/
theorem psplayRemove_spec (fuel : ℕ) (prng : ℕ → UInt32) (hcmp : TotalOrder cmp)
    (h : Represents cmp key self l)
    {node : Option ι} :
    ((∀ x, node = some x → x ∈ l ∨ ∀ y ∈ l, cmp (key x) (key y) ≠ 0) → l.length < fuel →
      ∃ out, psplayRemove cmp key fuel prng self node = some out) ∧
      ∀ res self', psplayRemove cmp key fuel prng self node = some (res, self') →
        Removed cmp key fuel prng self self' l node res := by
  cases node with
  | none =>
    refine ⟨fun _ _ => ⟨_, rfl⟩, ?_⟩
    rintro _ _ ⟨⟩
    exact Or.inl ⟨rfl, h, nofun⟩
  | some x =>
    rw [psplayRemove_some]
    cases hlocate : locate cmp key fuel prng fuel self x with
    | none =>
      refine ⟨fun hnode hfuel => ?_, nofun⟩
      obtain ⟨out, hout⟩ := locate_returns fuel prng hcmp h (hnode x rfl) hfuel.le (by omega)
      exact absurd (hout.symm.trans hlocate) (by simp)
    | some out =>
      obtain ⟨self₁, link⟩ := out
      obtain ⟨h₁, hlocated⟩ := locate_right hcmp h hlocate
      rcases hlocated with ⟨rfl, habsent⟩ | ⟨rfl, hlink⟩
      · refine ⟨fun _ _ => ⟨_, rfl⟩, ?_⟩
        rintro _ _ ⟨⟩
        refine Or.inl ⟨rfl, h₁, ?_⟩
        rintro _ ⟨⟩
        exact habsent
      · obtain ⟨before, after, rfl, hanchored, hreturns, hright⟩ :=
          removed_of_located fuel prng hcmp h₁ hlink
        cases hunlink : unlink fuel prng self₁.found_parent x self₁.memory with
        | none =>
          refine ⟨fun _ hfuel => ?_, ?_⟩
          · obtain ⟨m, hm⟩ := hreturns hfuel.le
            exact absurd (hm.symm.trans hunlink) (by simp)
          · simp [hunlink]
        | some m =>
          simp only [Option.bind_some, hunlink]
          refine ⟨fun _ _ => ⟨_, rfl⟩, ?_⟩
          rintro _ _ ⟨⟩
          exact Or.inr ⟨x, before, after, self₁, m, rfl, rfl, rfl, hlocate, hlink, hanchored,
            hunlink, rfl,
            hright m hunlink⟩

end Keys

end Lumiera.Lib.Psplay
