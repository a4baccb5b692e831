import Mathlib.Data.Set.Card

/-! # Cycle-free paths in a directed graph with repeated edges

A graph is given by the list of successors of each node, where a successor may be listed repeatedly. A **path**
is the list of positions of the edges taken, so that paths over repeated edges are different. It is cycle-free
when no node is visited twice; the nodes visited so far are accumulated on a stack. The paths from a node are
finitely many, since each one visits a node more, and their number is the sum over the successors
(`pathCount_of_not_mem`), which is what a traversal with such a stack counts. -/

namespace Lumiera

open List

universe u

variable {ι : Type u} (succ : ι → List ι)

/-- **A cycle-free path** from a node to another one, which does not visit any node on the stack. -/
inductive CycleFreePath : List ι → ι → List Nat → ι → Prop
  | here {stack : List ι} {x : ι} : x ∉ stack → CycleFreePath stack x [] x
  | step {stack : List ι} {x d n : ι} {i : Nat} {path : List Nat} :
      x ∉ stack → (succ x)[i]? = some d → CycleFreePath (x :: stack) d path n →
        CycleFreePath stack x (i :: path) n

/-- The nodes visited by following a path, as far as there are such edges. -/
def trail (x : ι) : List Nat → Option (List ι)
  | [] => some [x]
  | i :: path => (succ x)[i]?.bind fun d => (trail d path).map (x :: ·)

/-- The number of cycle-free paths between two nodes. -/
noncomputable def pathCount (stack : List ι) (x n : ι) : Nat :=
  Set.ncard {path | CycleFreePath succ stack x path n}

variable {succ} {stack : List ι} {x n d : ι}

/-! ## What a cycle-free path is -/

variable {path : List Nat}

theorem exists_tail_of_trail {nodes : List ι} (h : trail succ x path = some nodes) : ∃ rest, nodes = x :: rest := by
  cases path with
  | nil => exact ⟨[], (Option.some.inj h).symm⟩
  | cons i path =>
    obtain ⟨d, -, hrest⟩ := Option.bind_eq_some_iff.mp h
    obtain ⟨rest, -, hnodes⟩ := Option.map_eq_some_iff.mp hrest
    exact ⟨rest, hnodes.symm⟩

/-- A path is cycle-free when the nodes visited are pairwise different, and not on the stack. -/
theorem cycleFreePath_iff : CycleFreePath succ stack x path n ↔ ∃ nodes, trail succ x path = some nodes ∧
    nodes.Nodup ∧ (∀ m ∈ nodes, m ∉ stack) ∧ nodes.getLast? = some n := by
  constructor
  · intro h
    induction h with
    | here hx => exact ⟨[_], rfl, nodup_singleton _, by simpa using hx, rfl⟩
    | @step stack x d n i path hx hd _ ih =>
      obtain ⟨nodes, htrail, hnodup, hstack, hlast⟩ := ih
      obtain ⟨rest, rfl⟩ := exists_tail_of_trail htrail
      refine ⟨x :: d :: rest, by simp [trail, hd, htrail], ?_, ?_, ?_⟩
      · refine nodup_cons.mpr ⟨fun hmem => ?_, hnodup⟩
        exact hstack x hmem mem_cons_self
      · intro m hm
        rcases mem_cons.mp hm with rfl | hm
        · exact hx
        · exact fun hmem => hstack m hm (mem_cons_of_mem _ hmem)
      · exact hlast
  · rintro ⟨nodes, htrail, hnodup, hstack, hlast⟩
    induction path generalizing stack x nodes with
    | nil =>
      cases htrail
      cases hlast
      exact .here (hstack x mem_cons_self)
    | cons i path ih =>
      obtain ⟨d, hd, hrest⟩ := Option.bind_eq_some_iff.mp htrail
      obtain ⟨rest, hpath, rfl⟩ := Option.map_eq_some_iff.mp hrest
      obtain ⟨hx, hnodup⟩ := nodup_cons.mp hnodup
      refine .step (hstack x mem_cons_self) hd (ih rest hpath hnodup ?_ ?_)
      · intro m hm hmem
        rcases mem_cons.mp hmem with rfl | hmem
        · exact hx hm
        · exact hstack m (mem_cons_of_mem _ hm) hmem
      · obtain ⟨tail, rfl⟩ := exists_tail_of_trail hpath
        rwa [getLast?_cons_cons] at hlast

theorem CycleFreePath.not_mem (h : CycleFreePath succ stack x path n) : x ∉ stack := by
  cases h with
  | here hx => exact hx
  | step hx => exact hx

/-! ## How the paths continue -/

/-- The paths taking one of the given edges, which are numbered from some position on. -/
def branches (succ : ι → List ι) (stack : List ι) (n : ι) (edges : List ι) (k : Nat) : Set (List Nat) :=
  {path | ∃ i d rest, edges[i]? = some d ∧ path = (k + i) :: rest ∧ CycleFreePath succ stack d rest n}

theorem branches_nil (k : Nat) : branches succ stack n [] k = ∅ := by
  refine Set.eq_empty_of_forall_notMem ?_
  rintro path ⟨i, d, rest, hedge, -⟩
  simp at hedge

theorem branches_cons (edges : List ι) (k : Nat) :
    branches succ stack n (d :: edges) k =
      (List.cons k) '' {path | CycleFreePath succ stack d path n} ∪ branches succ stack n edges (k + 1) := by
  ext path
  constructor
  · rintro ⟨i, d', rest, hedge, rfl, hrest⟩
    cases i with
    | zero =>
      cases hedge
      exact Or.inl ⟨rest, hrest, rfl⟩
    | succ i => exact Or.inr ⟨i, d', rest, hedge, by rw [Nat.add_right_comm]; rfl, hrest⟩
  · rintro (⟨rest, hrest, rfl⟩ | ⟨i, d', rest, hedge, rfl, hrest⟩)
    · exact ⟨0, d, rest, rfl, rfl, hrest⟩
    · exact ⟨i + 1, d', rest, hedge, by rw [Nat.add_right_comm]; rfl, hrest⟩

theorem setOf_cycleFreePath [DecidableEq ι] (h : x ∉ stack) :
    {path | CycleFreePath succ stack x path n} =
      (if n = x then {[]} else ∅) ∪ branches succ (x :: stack) n (succ x) 0 := by
  ext path
  constructor
  · intro hpath
    cases hpath with
    | here => exact Or.inl (by simp)
    | @step _ _ d _ i path _ hedge hrest => exact Or.inr ⟨i, d, path, hedge, by rw [Nat.zero_add], hrest⟩
  · rintro (hend | ⟨i, d, rest, hedge, rfl, hrest⟩)
    · split_ifs at hend with hsame
      · subst hsame
        obtain rfl : path = [] := hend
        exact .here h
      · exact absurd hend (Set.notMem_empty _)
    · rw [Nat.zero_add]
      exact CycleFreePath.step h hedge hrest

theorem finite_branches {edges : List ι} (h : ∀ d, {path | CycleFreePath succ stack d path n}.Finite)
    (k : Nat) : (branches succ stack n edges k).Finite := by
  induction edges generalizing k with
  | nil =>
    rw [branches_nil]
    exact Set.finite_empty
  | cons d edges ih =>
    rw [branches_cons]
    exact ((h d).image _).union (ih (k + 1))

theorem pathCount_of_mem (h : x ∈ stack) : pathCount succ stack x n = 0 := by
  have hempty : {path | CycleFreePath succ stack x path n} = ∅ :=
    Set.eq_empty_of_forall_notMem fun path hpath => hpath.not_mem h
  rw [pathCount, hempty, Set.ncard_empty]

theorem pathCount_to_mem (h : n ∈ stack) : pathCount succ stack x n = 0 := by
  have hempty : {path | CycleFreePath succ stack x path n} = ∅ := by
    refine Set.eq_empty_of_forall_notMem fun path hpath => ?_
    obtain ⟨nodes, -, -, hstack, hlast⟩ := cycleFreePath_iff.mp hpath
    exact hstack n (mem_of_getLast? hlast) h
  rw [pathCount, hempty, Set.ncard_empty]

theorem eq_or_reaches_without {R : ι → ι → Prop} (h : Relation.ReflTransGen R x n) :
    n = x ∨ ∃ d, d ≠ x ∧ R x d ∧ Relation.ReflTransGen (fun a b => R a b ∧ b ≠ x) d n := by
  induction h with
  | refl => exact Or.inl rfl
  | @tail m n _ hstep ih =>
    by_cases hn : n = x
    · exact Or.inl hn
    · right
      rcases ih with rfl | ⟨d, hd, hfirst, hrest⟩
      · exact ⟨n, hn, hstep, .refl⟩
      · exact ⟨d, hd, hfirst, hrest.tail ⟨hstep, hn⟩⟩

/-! ## How many nodes can be visited still -/

section Finite

variable [Fintype ι] [DecidableEq ι]

/-- The number of nodes which are not on the stack. -/
def unvisited (stack : List ι) : Nat := (Finset.univ.filter fun m => m ∉ stack).card

theorem unvisited_push (h : x ∉ stack) : unvisited (x :: stack) < unvisited stack := by
  refine Finset.card_lt_card ⟨?_, fun hsub => ?_⟩
  · intro m hm
    simp only [Finset.mem_filter, Finset.mem_univ, true_and, mem_cons, not_or] at hm ⊢
    exact hm.2
  · have hmem := hsub (Finset.mem_filter.mpr ⟨Finset.mem_univ x, h⟩)
    simp at hmem

/-- There are only finitely many cycle-free paths. -/
theorem finite_cycleFreePaths (succ : ι → List ι) (stack : List ι) (x n : ι) :
    {path | CycleFreePath succ stack x path n}.Finite := by
  -- by induction on the number of nodes which are not on the stack
  generalize hk : unvisited stack = k
  induction k using Nat.strongRecOn generalizing stack x with
  | _ k ih =>
    by_cases hx : x ∈ stack
    · refine Set.finite_empty.subset ?_
      intro path hpath
      exact absurd hx (CycleFreePath.not_mem hpath)
    · rw [setOf_cycleFreePath hx]
      refine Set.Finite.union ?_ (finite_branches ?_ 0)
      · split_ifs
        · exact Set.finite_singleton _
        · exact Set.finite_empty
      · intro d
        refine ih (unvisited (x :: stack)) ?_ (x :: stack) d rfl
        rw [← hk]
        exact unvisited_push hx

theorem ncard_branches (edges : List ι) (k : Nat) :
    (branches succ stack n edges k).ncard = (edges.map fun d => pathCount succ stack d n).sum := by
  induction edges generalizing k with
  | nil =>
    rw [branches_nil]
    exact Set.ncard_empty _
  | cons d edges ih =>
    have hfinite : ∀ d, {path | CycleFreePath succ stack d path n}.Finite := fun d =>
      finite_cycleFreePaths succ stack d n
    rw [branches_cons, Set.ncard_union_eq ?_ ((hfinite d).image _) (finite_branches hfinite _), ih,
      Set.ncard_image_of_injective _ (cons_injective), map_cons, sum_cons]
    · rfl
    · rw [Set.disjoint_left]
      rintro path ⟨rest, -, rfl⟩ ⟨i, d', rest', -, heq, -⟩
      have hpos : k = k + 1 + i := (List.cons.inj heq).1
      omega

/-- Counting paths: either the node is the end, or the path goes on with one of the successors. -/
theorem pathCount_of_not_mem (h : x ∉ stack) :
    pathCount succ stack x n =
      (if n = x then 1 else 0) + ((succ x).map fun d => pathCount succ (x :: stack) d n).sum := by
  have hend : (if n = x then {[]} else ∅ : Set (List Nat)).Finite := by
    split_ifs
    · exact Set.finite_singleton _
    · exact Set.finite_empty
  have hbranches : (branches succ (x :: stack) n (succ x) 0).Finite :=
    finite_branches (fun d => finite_cycleFreePaths succ (x :: stack) d n) 0
  have hdisjoint : Disjoint (if n = x then {[]} else ∅ : Set (List Nat))
      (branches succ (x :: stack) n (succ x) 0) := by
    rw [Set.disjoint_left]
    rintro path hpath ⟨i, d, rest, -, rfl, -⟩
    split_ifs at hpath
    · exact cons_ne_nil _ _ hpath
    · exact hpath
  rw [← ncard_branches _ 0, pathCount, setOf_cycleFreePath h,
    Set.ncard_union_eq hdisjoint hend hbranches]
  split_ifs
  · rw [Set.ncard_singleton]
  · rw [Set.ncard_empty]

theorem pathCount_self_pos (succ : ι → List ι) (h : x ∉ stack) : 0 < pathCount succ stack x x := by
  rw [pathCount_of_not_mem h, if_pos rfl]
  omega

/-! ## Paths and reachability -/

/-- Whatever can be reached is reached on a cycle-free path. -/
theorem exists_cycleFreePath (hx : x ∉ stack) (h : Relation.ReflTransGen (fun a b => b ∈ succ a ∧ b ∉ stack) x n) :
    ∃ path, CycleFreePath succ stack x path n := by
  -- by induction on the number of nodes which are not on the stack
  generalize hk : unvisited stack = k
  induction k using Nat.strongRecOn generalizing stack x with
  | _ k ih =>
    rcases eq_or_reaches_without h with rfl | ⟨d, hd, ⟨hedge, hdstack⟩, hrest⟩
    · exact ⟨[], .here hx⟩
    · have hnotin : d ∉ x :: stack := not_mem_cons_of_ne_of_not_mem hd hdstack
      have hrest' : Relation.ReflTransGen (fun a b => b ∈ succ a ∧ b ∉ x :: stack) d n :=
        Relation.ReflTransGen.mono
          (fun a b hstep => ⟨hstep.1.1, not_mem_cons_of_ne_of_not_mem hstep.2 hstep.1.2⟩) _ _ hrest
      have hless : unvisited (x :: stack) < k := hk ▸ unvisited_push hx
      obtain ⟨path, hpath⟩ := ih _ hless hnotin hrest' rfl
      obtain ⟨i, hi⟩ := getElem?_of_mem hedge
      exact ⟨i :: path, .step hx hi hpath⟩

omit [Fintype ι] [DecidableEq ι] in
theorem CycleFreePath.reaches (h : CycleFreePath succ stack x path n) :
    Relation.ReflTransGen (fun a b => b ∈ succ a) x n := by
  induction h with
  | here _ => exact .refl
  | step _ hedge _ ih => exact .head (mem_of_getElem? hedge) ih

theorem pathCount_pos (h : Relation.ReflTransGen (fun a b => b ∈ succ a) x n) : 0 < pathCount succ [] x n := by
  have h' : Relation.ReflTransGen (fun a b => b ∈ succ a ∧ b ∉ ([] : List ι)) x n :=
    Relation.ReflTransGen.mono (fun a b hstep => ⟨hstep, not_mem_nil⟩) _ _ h
  obtain ⟨path, hpath⟩ := exists_cycleFreePath not_mem_nil h'
  exact (Set.ncard_pos (finite_cycleFreePaths succ [] x n)).mpr ⟨path, hpath⟩

theorem reaches_of_pathCount_pos (h : 0 < pathCount succ stack x n) :
    Relation.ReflTransGen (fun a b => b ∈ succ a) x n := by
  obtain ⟨path, hpath⟩ := (Set.ncard_pos (finite_cycleFreePaths succ stack x n)).mp h
  exact CycleFreePath.reaches hpath

end Finite

end Lumiera
