import Lumiera.Base.LinkedTree

/-! # The probabilistic splay tree (`lib/psplay.c`)

The way down to a node is recorded in a ring buffer of pointers to links, and from there the node is
splayed upwards, two levels at a time, until the top of the tree or of the buffer is near, or a
random number puts an end to it. A node is removed through the link which led to the node found
last, as long as this link still leads to the node.

The memory tells what the links point to; the link to the root is the field `tree`. Reading a slot
of the buffer which was never written, and following a null pointer, has no result. The number of a
loop's rounds is limited by fuel, and the outcomes of the random generator are given as a sequence.
-/

namespace Lumiera.Lib.Psplay

open Function (update)

variable {ι κ : Type*} [DecidableEq ι]

/-- `psplay_struct` -/
structure PSplay (ι : Type*) where
  memory : LinkMemory ι
  /-- Maybe the direct parent of the last found node, used for fast remove. -/
  found_parent : Link ι
  elem_cnt : ℕ
  /-- Roughly the logarithm of the number of elements. It wraps when the last element is removed. -/
  log2 : UInt32

/-- `psplay_init`, for nodes with arbitrary links. -/
def psplayInit (memory : LinkMemory ι) : PSplay ι where
  memory := update memory .root none
  found_parent := .root
  elem_cnt := 0
  log2 := 0

/-- `psplaynode_init` -/
def psplaynodeInit (m : LinkMemory ι) (self : ι) : LinkMemory ι :=
  update (update m (.child self .right) none) (.child self .left) none

/-! ## The trail -/

/-- `PSPLAY_TRAIL_DEPTH` -/
def trailDepth : ℕ := 128

/-- `psplaytrail` -/
structure Trail (ι : Type*) where
  dir : Int32
  depth : UInt32
  trail : UInt32 → Option (Link ι)

/-- `trailidx` -/
def trailidx (n : UInt32) : UInt32 := n &&& 127

/-- The trail at the root. -/
def Trail.start : Trail ι where
  dir := 0
  depth := 0
  trail := update (fun _ => none) 0 (some .root)

/-- The trail one level deeper. -/
def Trail.enter (tr : Trail ι) (n : ι) (d : Side) : Trail ι where
  dir := match d with
    | .left => tr.dir - 1
    | .right => tr.dir + 1
  depth := tr.depth + 1
  trail := update tr.trail (trailidx (tr.depth + 1)) (some (.child n d))

/-! ## Splaying -/

/-- Both steps to the same side: `ZIG..ZIG` for left and `ZAG..ZAG` for right. -/
def zigzig (d : Side) (node parent grandparent : ι) (m : LinkMemory ι) : LinkMemory ι :=
  let m := update m (.child grandparent d) (m (.child parent d.flip))
  let m := update m (.child parent d.flip) (some grandparent)
  let m := update m (.child parent d) (m (.child node d.flip))
  update m (.child node d.flip) (some parent)

/-- The steps to different sides: `ZIG..ZAG` for left and `ZAG..ZIG` for right. -/
def zigzag (d : Side) (node parent grandparent : ι) (m : LinkMemory ι) : LinkMemory ι :=
  let m := update m (.child parent d.flip) (m (.child node d))
  let m := update m (.child node d) (some parent)
  let m := update m (.child grandparent d) (m (.child node d.flip))
  update m (.child node d.flip) (some grandparent)

/-- At which side of a node there is this child, when it is one of its children. -/
def sideOf (m : LinkMemory ι) (node child : ι) : Side :=
  if m (.child node .left) = some child then .left else .right

/-- `PSPLAY_FORMULA` -/
def formula (log2 : UInt32) (dir : Int32) (splayfactor depth rnd : UInt32) : UInt32 :=
  (log2 * 100 / (depth + (rnd &&& 63)) + dir.toUInt32) * splayfactor

/-- The bound for going on: `PSPLAY_PROB_ZIGZIG` or `PSPLAY_PROB_ZIGZAG`. -/
def probability (sameSide : Bool) : UInt32 := if sameSide then 5000 else 2500

/-- The loop of `psplay_splay`, with the countdown of levels in the buffer. -/
def splayLoop (log2 : UInt32) (dir : Int32) (trail : UInt32 → Option (Link ι)) (splayfactor : UInt32) :
    ℕ → UInt32 → (ℕ → UInt32) → LinkMemory ι → Option (LinkMemory ι)
  | lim + 2, depth, prng, m =>
    if lim + 2 > 2 ∧ depth > 2 then do
      let top ← trail (trailidx (depth - 2))
      let node ← m (← trail (trailidx depth))
      let parent ← m (← trail (trailidx (depth - 1)))
      let grandparent ← m top
      let d := sideOf m grandparent parent
      let sameSide := decide (sideOf m parent node = d)
      if formula log2 dir splayfactor depth (prng 0) < probability sameSide then some m
      else
        let m := if sameSide then zigzig d node parent grandparent m else zigzag d node parent grandparent m
        splayLoop log2 dir trail splayfactor lim (depth - 2) (fun n => prng (n + 1))
          (update m top (some node))
    else some m
  | _, _, _, m => some m

/-- `psplay_splay` -/
def psplaySplay (prng : ℕ → UInt32) (self : PSplay ι) (tr : Trail ι) (splayfactor : UInt32) :
    Option (PSplay ι) := do
  let dir := if tr.dir < 0 then -tr.dir else tr.dir
  let m ← splayLoop self.log2 dir tr.trail splayfactor trailDepth tr.depth prng self.memory
  some { self with memory := m }

/-- Splay when this is asked for and the node is deep enough. -/
def maybeSplay (prng : ℕ → UInt32) (self : PSplay ι) (tr : Trail ι) (splayfactor : UInt32) :
    Option (PSplay ι) :=
  if splayfactor ≠ 0 ∧ tr.depth > 2 then psplaySplay prng self tr splayfactor else some self

/-! ## Insert -/

section Keys

variable (cmp : κ → κ → ℤ) (key : ι → κ)

/-- The loop of `psplay_insert`: no trail for a duplicate entry. -/
def insertLoop (node : ι) : ℕ → ι → Trail ι → LinkMemory ι → Option (Option (Trail ι) × LinkMemory ι)
  | fuel, n, tr, m =>
    if n = node then some (some tr, m)
    else match fuel with
      | 0 => none
      | fuel + 1 =>
        let c := cmp (key node) (key n)
        if c < 0 then
          let m := if m (.child n .left) = none then update m (.child n .left) (some node) else m
          (m (.child n .left)).bind fun next => insertLoop node fuel next (tr.enter n .left) m
        else if c > 0 then
          let m := if m (.child n .right) = none then update m (.child n .right) (some node) else m
          (m (.child n .right)).bind fun next => insertLoop node fuel next (tr.enter n .right) m
        else some (none, m)

/-- One more element. -/
def countUp (self : PSplay ι) : PSplay ι :=
  let elem_cnt := self.elem_cnt + 1
  { self with
    elem_cnt := elem_cnt
    log2 := if elem_cnt ≥ ((1 : UInt64) <<< self.log2.toUInt64).toNat then self.log2 + 1 else self.log2 }

/-- One element less. -/
def countDown (self : PSplay ι) : PSplay ι :=
  let elem_cnt := self.elem_cnt - 1
  { self with
    elem_cnt := elem_cnt
    log2 := if elem_cnt < ((1 : UInt64) <<< self.log2.toUInt64).toNat then self.log2 - 1 else self.log2 }

/-- The first part of `psplay_insert`: the node is linked, as the root of an empty tree or by the loop. -/
def linkNode (fuel : ℕ) (m : LinkMemory ι) (node : ι) : Option (Option (Trail ι) × LinkMemory ι) :=
  match m .root with
  | none => some (some Trail.start, update m .root (some node))
  | some n => insertLoop cmp key node fuel n Trail.start m

/-- `psplay_insert` -/
def psplayInsert (fuel : ℕ) (prng : ℕ → UInt32) (self : PSplay ι) (node : ι) (splayfactor : UInt32) :
    Option (Option ι × PSplay ι) := do
  let (trail, m) ← linkNode cmp key fuel self.memory node
  match trail with
  | none => some (none, { self with memory := m })
  | some tr =>
    let self ← maybeSplay prng (countUp { self with memory := m }) tr splayfactor
    some (some node, self)

/-! ## Find -/

/-- The loop of `psplay_find`: the node and the trail to it. -/
def findLoop (k : κ) (m : LinkMemory ι) : ℕ → Option ι → Trail ι → Option (Option ι × Trail ι)
  | _, none, tr => some (none, tr)
  | 0, some _, _ => none
  | fuel + 1, some node, tr =>
    let c := cmp k (key node)
    if c < 0 then findLoop k m fuel (m (.child node .left)) (tr.enter node .left)
    else if c > 0 then findLoop k m fuel (m (.child node .right)) (tr.enter node .right)
    else some (some node, tr)

/-- `psplay_find` -/
def psplayFind (fuel : ℕ) (prng : ℕ → UInt32) (self : PSplay ι) (k : κ) (splayfactor : UInt32) :
    Option (Option ι × PSplay ι) := do
  let (node, tr) ← findLoop cmp key k self.memory fuel (self.memory .root) Trail.start
  match node with
  | none => some (none, self)
  | some node =>
    let found_parent ← tr.trail (trailidx tr.depth)
    let self ← maybeSplay prng { self with found_parent := found_parent } tr splayfactor
    some (some node, self)

/-! ## Remove -/

/-- The loop of `psplay_remove`: search until the link leads to the node; no link when there is no
such key. -/
def locate (findFuel : ℕ) (prng : ℕ → UInt32) : ℕ → PSplay ι → ι → Option (PSplay ι × Option (Link ι))
  | fuel, self, node =>
    if self.memory self.found_parent = some node then some (self, some self.found_parent)
    else match fuel with
      | 0 => none
      | fuel + 1 => do
          let (found, self) ← psplayFind cmp key findFuel prng self (key node) 0
          match found with
          | none => some (self, none)
          | some _ => locate findFuel prng fuel self node

end Keys

/-- The outermost node at this side, and its parent: the loops over `i` and `iparent`. -/
def outermost (m : LinkMemory ι) (d : Side) : ℕ → Option ι → ι → Option (Option ι × ι)
  | fuel, iparent, i =>
    match m (.child i d) with
    | none => some (iparent, i)
    | some next =>
      match fuel with
      | 0 => none
      | fuel + 1 => outermost m d fuel (some i) next

/-- The parent, if any, takes over what is below the neighbour. -/
def handOver (d : Side) (iparent : Option ι) (i : ι) (m : LinkMemory ι) : LinkMemory ι :=
  match iparent with
  | none => m
  | some iparent => update m (.child iparent d.flip) (m (.child i d))

/-- A neighbour in order takes the place of the node: it is found at this side of the node. -/
def replaceBy (d : Side) (r : Link ι) (node : ι) (iparent : Option ι) (i : ι) (m : LinkMemory ι) :
    LinkMemory ι :=
  let m := handOver d iparent i m
  let m := if m (.child node d) ≠ some i then update m (.child i d) (m (.child node d)) else m
  let m := update m (.child i d.flip) (m (.child node d.flip))
  update m r (some i)

/-- A node with two subtrees is replaced by its neighbour at this side. -/
def replaceNode (fuel : ℕ) (d : Side) (r : Link ι) (node : ι) (m : LinkMemory ι) : Option (LinkMemory ι) := do
  let first ← m (.child node d)
  let (iparent, i) ← outermost m d.flip fuel none first
  some (replaceBy d r node iparent i m)

/-- The node is taken off the link which leads to it. -/
def unlink (fuel : ℕ) (prng : ℕ → UInt32) (r : Link ι) (node : ι) (m : LinkMemory ι) :
    Option (LinkMemory ι) :=
  if m (.child node .left) = none then some (update m r (m (.child node .right)))
  else if m (.child node .right) = none then some (update m r (m (.child node .left)))
  -- 50% probability removing left or right wards
  else replaceNode fuel (if prng 0 &&& 1 ≠ 0 then .left else .right) r node m

section Keys

variable (cmp : κ → κ → ℤ) (key : ι → κ)

/-- `psplay_remove` -/
def psplayRemove (fuel : ℕ) (prng : ℕ → UInt32) (self : PSplay ι) (node : Option ι) :
    Option (Option ι × PSplay ι) :=
  match node with
  | none => some (none, self)
  | some node => do
      let (self, r) ← locate cmp key fuel prng fuel self node
      match r with
      | none => some (none, self)
      | some r =>
        let m ← unlink fuel prng r node self.memory
        some (some node, countDown { self with memory := m })

/-- `psplay_remove_key` -/
def psplayRemoveKey (fuel : ℕ) (prng : ℕ → UInt32) (self : PSplay ι) (k : κ) :
    Option (Option ι × PSplay ι) := do
  let (node, self) ← psplayFind cmp key fuel prng self k 0
  psplayRemove cmp key fuel prng self node

/-- `psplay_destroy`: the nodes handed to `del` are given in this order. -/
def psplayDestroy (fuel : ℕ) (prng : ℕ → ℕ → UInt32) : ℕ → PSplay ι → Option (List (Option ι) × PSplay ι)
  | 0, _ => none
  | rounds + 1, self =>
    match self.memory .root with
    | none => some ([], self)
    | some tree => do
      let (n, self) ← psplayRemove cmp key fuel (prng rounds) self (some tree)
      let (deleted, self) ← psplayDestroy fuel prng rounds self
      return (n :: deleted, self)

end Keys

/-! ## Splaying keeps the order

A double rotation moves a node two levels up and keeps the order of the nodes. It changes links of
three nodes, and the link which leads to the topmost of these. The splaying loop performs such
rotations at positions further and further up; wherever it stops, the tree has the same nodes in the
same order. -/

open LinkedTree

variable {m m' : LinkMemory ι} {fs : List (Frame ι)} {d e : Side} {x p g : ι}
  {near far pfar gfar : BinaryTree ι}

/-! ## The links after a rotation -/

/-- Links of other nodes than these three stay the same. -/
def Elsewhere (m m' : LinkMemory ι) (x p g : ι) : Prop :=
  m' .root = m .root ∧ ∀ y, y ≠ x → y ≠ p → y ≠ g → ∀ e, m' (.child y e) = m (.child y e)

theorem zigzig_elsewhere : Elsewhere m (zigzig d x p g m) x p g := by
  refine ⟨by simp [zigzig, update], fun y hx hp hg e => ?_⟩
  simp [zigzig, hx, hp, hg]

theorem zigzag_elsewhere : Elsewhere m (zigzag d x p g m) x p g := by
  refine ⟨by simp [zigzag, update], fun y hx hp hg e => ?_⟩
  simp [zigzag, hx, hp, hg]

theorem zigzig_links (hxp : x ≠ p) (hxg : x ≠ g) (hpg : p ≠ g) :
    zigzig d x p g m (.child x d) = m (.child x d) ∧ zigzig d x p g m (.child x d.flip) = some p ∧
      zigzig d x p g m (.child p d) = m (.child x d.flip) ∧ zigzig d x p g m (.child p d.flip) = some g ∧
      zigzig d x p g m (.child g d) = m (.child p d.flip) ∧
      zigzig d x p g m (.child g d.flip) = m (.child g d.flip) := by
  simp [zigzig, hxp, hxg, hxp.symm, hxg.symm, hpg.symm]

theorem zigzag_links (hxp : x ≠ p) (hxg : x ≠ g) (hpg : p ≠ g) :
    zigzag d x p g m (.child x d) = some p ∧ zigzag d x p g m (.child x d.flip) = some g ∧
      zigzag d x p g m (.child p d) = m (.child p d) ∧ zigzag d x p g m (.child p d.flip) = m (.child x d) ∧
      zigzag d x p g m (.child g d) = m (.child x d.flip) ∧
      zigzag d x p g m (.child g d.flip) = m (.child g d.flip) := by
  simp [zigzag, hxp, hxg, hpg, hxp.symm, hxg.symm, hpg.symm]

/-! ## The tree after a rotation -/

/-- **Three nodes, subtrees and the frames above**, all different. -/
structure Apart (x p g : ι) (subtrees : List ι) (fs : List (Frame ι)) : Prop where
  node_ne_parent : x ≠ p
  node_ne_grandparent : x ≠ g
  parent_ne_grandparent : p ≠ g
  subtrees_ne : ∀ y ∈ subtrees, y ≠ x ∧ y ≠ p ∧ y ≠ g
  around_ne : ∀ y ∈ around fs, y ≠ x ∧ y ≠ p ∧ y ≠ g
  not_mem_around : ∀ y ∈ subtrees, y ∉ around fs
  nodup_around : (around fs).Nodup

omit [DecidableEq ι] in
theorem apart_of_nodup {subtrees : List ι} (h : (x :: p :: g :: (subtrees ++ around fs)).Nodup) :
    Apart x p g subtrees fs := by
  rw [List.nodup_cons, List.nodup_cons, List.nodup_cons, List.nodup_append] at h
  obtain ⟨hx, hp, hg, -, hnodup, hdisjoint⟩ := h
  simp only [List.mem_cons, List.mem_append, not_or] at hx hp hg
  refine ⟨hx.1, hx.2.1, hp.1, fun y hy => ⟨?_, ?_, ?_⟩, fun y hy => ⟨?_, ?_, ?_⟩,
    fun y hy hy' => hdisjoint y hy y hy' rfl, hnodup⟩
  · exact fun heq => hx.2.2.1 (heq ▸ hy)
  · exact fun heq => hp.2.1 (heq ▸ hy)
  · exact fun heq => hg.1 (heq ▸ hy)
  · exact fun heq => hx.2.2.2 (heq ▸ hy)
  · exact fun heq => hp.2.2 (heq ▸ hy)
  · exact fun heq => hg.2 (heq ▸ hy)

namespace Apart

variable {subtrees : List ι} (h : Apart x p g subtrees fs) (helse : Elsewhere m m' x p g) {v : Option ι}

omit [DecidableEq ι] in
include h in
theorem child_ne {y : ι} (hy : y = x ∨ y = p ∨ y = g) (e : Side) : .child y e ≠ linkAt .root fs := by
  refine child_ne_linkAt ?_ (by simp)
  intro hmem
  obtain ⟨hx, hp, hg⟩ := h.around_ne y hmem
  rcases hy with rfl | rfl | rfl
  · exact hx rfl
  · exact hp rfl
  · exact hg rfl

include h helse in
theorem holdsFrames (hframes : HoldsFrames m .root fs) : HoldsFrames (update m' (linkAt .root fs) v) .root fs := by
  apply hframes.update h.nodup_around
  · intro y _ e
    exact nofun
  · exact helse.1
  · intro y hy e
    obtain ⟨hx, hp, hg⟩ := h.around_ne y hy
    exact helse.2 y hx hp hg e

include h helse in
theorem holds {o : Option ι} {t : BinaryTree ι} (ht : Holds m o t) (hsub : ∀ y ∈ inorder t, y ∈ subtrees) :
    Holds (update m' (linkAt .root fs) v) o t := by
  apply ht.update
  · intro y hy e
    obtain ⟨hx, hp, hg⟩ := h.subtrees_ne y (hsub y hy)
    exact helse.2 y hx hp hg e
  · intro y hy e
    exact child_ne_linkAt (h.not_mem_around y (hsub y hy)) (by simp)

end Apart

/-- **Both steps to the same side**: the node, its parent and its grandparent now descend to the
other side. -/
theorem holds_zigzig (hframes : HoldsFrames m .root (⟨d, p, pfar⟩ :: ⟨d, g, gfar⟩ :: fs))
    (hsub : Holds m (m (.child p d)) (join d x near far))
    (h : Apart x p g (inorder near ++ inorder far ++ inorder pfar ++ inorder gfar) fs) :
    let m' := update (zigzig d x p g m) (linkAt .root fs) (some x)
    HoldsFrames m' .root fs ∧
      Holds m' (m' (linkAt .root fs)) (join d x near (join d p far (join d g pfar gfar))) := by
  obtain ⟨-, hpfar, -, hgfar, hrest⟩ := hframes
  obtain ⟨-, hnear, hfar⟩ := holds_join.mp hsub
  obtain ⟨l1, l2, l3, l4, l5, l6⟩ := zigzig_links (m := m) (d := d) h.node_ne_parent h.node_ne_grandparent
    h.parent_ne_grandparent
  refine ⟨h.holdsFrames zigzig_elsewhere hrest, ?_⟩
  have hx := fun e => Function.update_of_ne (h.child_ne (Or.inl rfl) e) (some x) (zigzig d x p g m)
  have hp := fun e => Function.update_of_ne (h.child_ne (Or.inr (Or.inl rfl)) e) (some x) (zigzig d x p g m)
  have hg := fun e => Function.update_of_ne (h.child_ne (Or.inr (Or.inr rfl)) e) (some x) (zigzig d x p g m)
  rw [Function.update_self, holds_join, holds_join, holds_join, hx, hx, hp, hp, hg, hg, l1, l2, l3,
    l4, l5, l6]
  refine ⟨rfl, ?_, rfl, ?_, rfl, ?_, ?_⟩
  · exact h.holds zigzig_elsewhere hnear fun y hy => by simp [hy]
  · exact h.holds zigzig_elsewhere hfar fun y hy => by simp [hy]
  · exact h.holds zigzig_elsewhere hpfar fun y hy => by simp [hy]
  · exact h.holds zigzig_elsewhere hgfar fun y hy => by simp [hy]

/-- The steps to different sides: the parent and the grandparent are now the children of the node. -/
theorem holds_zigzag (hframes : HoldsFrames m .root (⟨d.flip, p, pfar⟩ :: ⟨d, g, gfar⟩ :: fs))
    (hsub : Holds m (m (.child p d.flip)) (join d x near far))
    (h : Apart x p g (inorder near ++ inorder far ++ inorder pfar ++ inorder gfar) fs) :
    let m' := update (zigzag d x p g m) (linkAt .root fs) (some x)
    HoldsFrames m' .root fs ∧
      Holds m' (m' (linkAt .root fs)) (join d x (join d p pfar near) (join d g far gfar)) := by
  obtain ⟨-, hpfar, -, hgfar, hrest⟩ := hframes
  obtain ⟨-, hnear, hfar⟩ := holds_join.mp hsub
  obtain ⟨l1, l2, l3, l4, l5, l6⟩ := zigzag_links (m := m) (d := d) h.node_ne_parent h.node_ne_grandparent
    h.parent_ne_grandparent
  refine ⟨h.holdsFrames zigzag_elsewhere hrest, ?_⟩
  have hx := fun e => Function.update_of_ne (h.child_ne (Or.inl rfl) e) (some x) (zigzag d x p g m)
  have hp := fun e => Function.update_of_ne (h.child_ne (Or.inr (Or.inl rfl)) e) (some x) (zigzag d x p g m)
  have hg := fun e => Function.update_of_ne (h.child_ne (Or.inr (Or.inr rfl)) e) (some x) (zigzag d x p g m)
  rw [Side.flip_flip] at hpfar
  rw [Function.update_self, holds_join, holds_join, holds_join, hx, hx, hp, hp, hg, hg, l1, l2, l3,
    l4, l5, l6]
  refine ⟨rfl, ⟨rfl, ?_, ?_⟩, rfl, ?_, ?_⟩
  · exact h.holds zigzag_elsewhere hpfar fun y hy => by simp [hy]
  · exact h.holds zigzag_elsewhere hnear fun y hy => by simp [hy]
  · exact h.holds zigzag_elsewhere hfar fun y hy => by simp [hy]
  · exact h.holds zigzag_elsewhere hgfar fun y hy => by simp [hy]

/-! ## The order -/

omit [DecidableEq ι] in
theorem inorder_zigzig :
    inorder (plug (join d x near (join d p far (join d g pfar gfar))) fs) =
      inorder (plug (join d x near far) (⟨d, p, pfar⟩ :: ⟨d, g, gfar⟩ :: fs)) := by
  simp only [plug, attach, inorder_plug]
  cases d <;> simp [join, inorder]

omit [DecidableEq ι] in
theorem inorder_zigzag :
    inorder (plug (join d x (join d p pfar near) (join d g far gfar)) fs) =
      inorder (plug (join d x near far) (⟨d.flip, p, pfar⟩ :: ⟨d, g, gfar⟩ :: fs)) := by
  simp only [plug, attach, inorder_plug]
  cases d <;> simp [join, inorder, Side.flip]

theorem apart_of_plug (hnodup : (inorder (plug (join d x near far) (⟨e, p, pfar⟩ :: ⟨d, g, gfar⟩ :: fs))).Nodup) :
    Apart x p g (inorder near ++ inorder far ++ inorder pfar ++ inorder gfar) fs := by
  apply apart_of_nodup
  have hperm : (inorder (plug (join d x near far) (⟨e, p, pfar⟩ :: ⟨d, g, gfar⟩ :: fs))).Perm
      (x :: p :: g :: (inorder near ++ inorder far ++ inorder pfar ++ inorder gfar ++ around fs)) := by
    rw [List.perm_iff_count]
    intro a
    rw [(inorder_plug_perm _ _).count_eq, List.count_append, (around_cons_perm _ _).count_eq, List.count_cons,
      List.count_append, (around_cons_perm _ _).count_eq, inorder_join]
    cases d <;> simp only [List.count_append, List.count_cons] <;> omega
  exact hperm.nodup_iff.mp hnodup

/-- The test of the children tells the side from where the way came. -/
theorem sideOf_eq (hlink : m (.child p e) = some x) (hfar : Holds m (m (.child p e.flip)) pfar)
    (hne : x ∉ inorder pfar) : sideOf m p x = e := by
  unfold sideOf
  cases e with
  | left => rw [if_pos hlink]
  | right =>
    rw [if_neg]
    intro heq
    rw [Side.flip, heq] at hfar
    obtain ⟨l, r, rfl⟩ := hfar.exists_node
    exact hne (by simp [inorder])

omit [DecidableEq ι] in
theorem join_eq_node (d : Side) (x : ι) (near far : BinaryTree ι) : ∃ l r, join d x near far = .node x l r := by
  cases d with
  | left => exact ⟨near, far, rfl⟩
  | right => exact ⟨far, near, rfl⟩

/-- The memory after one round. -/
def rotate (d e : Side) (x p g : ι) (top : Link ι) (m : LinkMemory ι) : LinkMemory ι :=
  update (if e = d then zigzig d x p g m else zigzag d x p g m) top (some x)

/-- One round: the sides are told, and the node moves two levels up. -/
theorem rotate_spec {l r : BinaryTree ι} (hframes : HoldsFrames m .root (⟨e, p, pfar⟩ :: ⟨d, g, gfar⟩ :: fs))
    (hsub : Holds m (m (.child p e)) (.node x l r))
    (hnodup : (inorder (plug (.node x l r) (⟨e, p, pfar⟩ :: ⟨d, g, gfar⟩ :: fs))).Nodup) :
    sideOf m g p = d ∧ sideOf m p x = e ∧ ∃ l' r',
      Holds (rotate d e x p g (linkAt .root fs) m) (rotate d e x p g (linkAt .root fs) m .root)
          (plug (.node x l' r') fs) ∧
        inorder (plug (.node x l' r') fs) =
          inorder (plug (.node x l r) (⟨e, p, pfar⟩ :: ⟨d, g, gfar⟩ :: fs)) := by
  obtain ⟨near, far, hjoin⟩ := exists_join d x l r
  rw [hjoin] at hsub hnodup ⊢
  have h := apart_of_plug hnodup
  have hsides : sideOf m g p = d ∧ sideOf m p x = e := by
    obtain ⟨hparent, hpfar, -, hgfar, -⟩ := hframes
    have hnode := (holds_join.mp hsub).1
    constructor
    · exact sideOf_eq hparent hgfar fun hmem => (h.subtrees_ne p (by simp [hmem])).2.1 rfl
    · exact sideOf_eq hnode hpfar fun hmem => (h.subtrees_ne x (by simp [hmem])).1 rfl
  refine ⟨hsides.1, hsides.2, ?_⟩
  unfold rotate
  by_cases hsame : e = d
  · subst hsame
    obtain ⟨l', r', hnode⟩ := join_eq_node e x near (join e p far (join e g pfar gfar))
    refine ⟨l', r', ?_, ?_⟩
    · rw [if_pos rfl, holds_plug, ← hnode]
      exact holds_zigzig hframes hsub h
    · rw [← hnode, inorder_zigzig]
  · have hflip : e = d.flip := by
      cases e <;> cases d <;> first | rfl | exact absurd rfl hsame
    subst hflip
    obtain ⟨l', r', hnode⟩ := join_eq_node d x (join d p pfar near) (join d g far gfar)
    refine ⟨l', r', ?_, ?_⟩
    · rw [if_neg hsame, holds_plug, ← hnode]
      exact holds_zigzag hframes hsub h
    · rw [← hnode, inorder_zigzag]

/-! ## The loop -/

/-- **The buffer** holds the links which lead to the last positions on the way. -/
def RingHolds (trail : UInt32 → Option (Link ι)) (depth : UInt32) (lim : ℕ) (fs : List (Frame ι)) : Prop :=
  ∀ k < lim, k ≤ fs.length → trail (trailidx (depth - UInt32.ofNat k)) = some (linkAt .root (fs.drop k))

/-- Wherever the loop stops, **the tree has the same nodes in the same order**. -/
theorem splayLoop_spec (log2 : UInt32) (dir : Int32) (trail : UInt32 → Option (Link ι))
    (splayfactor : UInt32) :
    ∀ {lim : ℕ} {depth : UInt32} {prng : ℕ → UInt32} {m : LinkMemory ι} {x : ι} {l r : BinaryTree ι}
      {fs : List (Frame ι)}, depth = UInt32.ofNat fs.length → RingHolds trail depth lim fs →
      Holds m (m .root) (plug (.node x l r) fs) → (inorder (plug (.node x l r) fs)).Nodup →
      ∃ m' t, splayLoop log2 dir trail splayfactor lim depth prng m = some m' ∧ Holds m' (m' .root) t ∧
        inorder t = inorder (plug (.node x l r) fs)
  | 0, _, _, m, _, _, _, _, _, _, hholds, _ => ⟨m, _, rfl, hholds, rfl⟩
  | 1, _, _, m, _, _, _, _, _, _, hholds, _ => ⟨m, _, rfl, hholds, rfl⟩
  | lim + 2, depth, prng, m, x, l, r, fs, hdepth, hring, hholds, hnodup => by
    rw [splayLoop]
    by_cases hgo : lim + 2 > 2 ∧ depth > 2
    · have hlength : 3 ≤ fs.length := by
        have hlt := UInt32.lt_iff_toNat_lt.mp hgo.2
        rw [hdepth, UInt32.toNat_ofNat'] at hlt
        have htwo : (2 : UInt32).toNat = 2 := rfl
        omega
      obtain ⟨⟨e, p, pfar⟩, ⟨d, g, gfar⟩, fs, rfl⟩ : ∃ f1 f2 fs', fs = f1 :: f2 :: fs' := by
        match fs, hlength with
        | f1 :: f2 :: fs', _ => exact ⟨f1, f2, fs', rfl⟩
      rw [if_pos hgo]
      have hnodeLink := hring 0 (by omega) (by simp)
      have hparentLink := hring 1 (by omega) (by simp)
      have htopLink := hring 2 (by omega) (by simp)
      obtain ⟨hframes, hsub⟩ := holds_plug.mp hholds
      have hnode := hsub.1
      have hparent := hframes.1
      have hgrandparent := hframes.2.2.1
      obtain ⟨hd, he, l', r', hholds', horder⟩ := rotate_spec hframes hsub hnodup
      have hzero : depth - UInt32.ofNat 0 = depth := UInt32.sub_zero depth
      rw [hzero] at hnodeLink
      simp only [UInt32.reduceOfNat, List.drop_succ_cons, List.drop_zero] at hnodeLink hparentLink htopLink
      rw [hnodeLink, hparentLink, htopLink]
      simp only [Option.bind_eq_bind, Option.bind_some, hnode, hparent, hgrandparent, hd, he]
      split
      · exact ⟨m, _, rfl, hholds, rfl⟩
      · have hdepth' : depth - 2 = UInt32.ofNat fs.length := by
          rw [hdepth, List.length_cons, List.length_cons, UInt32.ofNat_add, UInt32.ofNat_add]
          grind
        have hring' : RingHolds trail (depth - 2) lim fs := by
          intro k hk hle
          have hslot := hring (k + 2) (by omega) (by simpa using hle)
          have hindex : depth - UInt32.ofNat (k + 2) = depth - 2 - UInt32.ofNat k := by
            rw [UInt32.ofNat_add]
            grind
          rw [hindex] at hslot
          exact hslot
        simp only [decide_eq_true_eq]
        rw [← horder]
        exact splayLoop_spec _ _ _ _ hdepth' hring' hholds' (by rw [horder]; exact hnodup)
    · rw [if_neg hgo]
      exact ⟨m, _, rfl, hholds, rfl⟩

end Lumiera.Lib.Psplay
