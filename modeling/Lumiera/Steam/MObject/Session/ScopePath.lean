import Lumiera.Steam.MObject.Session.QueryFocusSound
import Lumiera.Steam.MObject.Session.PlacementIndexQueryResolver

/-! # Relations of scope paths (`scope-path.cpp`)

A path of scopes is compared with another one by loops over the positions, or over the elements. What
these comparisons mean follows from the tree: a path built by navigation is the chain of all the scopes
from root down to its leaf, thus a scope determines the part of the path leading there.

A scope which can not be located within the model is written as none where it is a value. -/

namespace Lumiera.Steam.MObject.Session

open List

universe u v

open Relation (ReflTransGen)

/-- The exceptions raised. -/
inductive ScopeError
  /-- `LERR_(EMPTY_SCOPE_PATH)` -/
  | emptyScopePath (operation_descr : String)
  /-- `LERR_(INVALID_SCOPE)` -/
  | invalidScope
  deriving DecidableEq, Repr

/-- The text of an exception. -/
def ScopeError.what : ScopeError → String
  | .emptyScopePath operation_descr => operation_descr ++ " an empty placement scope path"
  | .invalidScope => "can't navigate to a target scope outside the model"

namespace ScopePath

variable {P : Type u} [DecidableEq P]

/-- The path token for an invalid scope; the identity of a path not on the stack is of no significance. -/
def INVALID : ScopePath P := ⟨0, 0, []⟩

def length (path : ScopePath P) : ℕ := path.path_.length

def empty (path : ScopePath P) : Bool := path.path_.isEmpty

/-! ## Relations -/

/-- The last element of the path. -/
def getLeaf (path : ScopePath P) : Except ScopeError P :=
  match path.path_.getLast? with
  | none => .error (.emptyScopePath "Inspecting")
  | some leaf => .ok leaf

/-- `contains (Scope const&)`; bottom is contained everywhere. The iteration is from leaf to root. -/
def contains (path : ScopePath P) (aScope : Option P) : Bool :=
  match aScope with
  | none => true
  | some aScope => path.path_.reverse.any fun scope => aScope = scope

/-- `contains (ScopePath const&)` -/
def containsPath (path otherPath : ScopePath P) : Bool :=
  if ¬ otherPath.isValid then true
  else if path.empty then false
  else if ¬ path.isValid then false
  else otherPath.path_.reverse.all fun scope => path.contains (some scope)

/-- Extend the path. -/
def appendScope (path : ScopePath P) (child : P) : ScopePath P := { path with path_ := path.path_ ++ [child] }

/-- **Append all elements which are the same** at the same position. -/
def commonPrefix (path1 path2 : ScopePath P) : ScopePath P :=
  let len := min path1.length path2.length
  (List.range len).foldl
    (fun result pos =>
      match path1.path_[pos]?, path2.path_[pos]? with
      | some scope1, some scope2 => if scope1 = scope2 then result.appendScope scope1 else result
      | _, _ => result)
    INVALID

/-- There is no common prefix, besides root. -/
def disjoint (path1 path2 : ScopePath P) : Bool :=
  if path1.empty || path2.empty then false
  else path1.isValid && path2.isValid && path1.path_[1]? != path2.path_[1]?

/-! ## Mutations -/

/-- Move up one level; at root there is no scope to return. -/
def moveUp (path : ScopePath P) : Except ScopeError (Option P × ScopePath P) :=
  if path.empty then .error (.emptyScopePath "Navigating")
  else
    let path := { path with path_ := path.path_.take (path.length - 1) }
    .ok (path.path_.getLast?, path)

/-- Back to root. -/
def goRoot (path : ScopePath P) : Except ScopeError (Option P × ScopePath P) :=
  if path.empty then .error (.emptyScopePath "Navigating")
  else
    let path := { path with path_ := path.path_.take 1 }
    .ok (path.path_.getLast?, path)

variable (T : PlacementTree P)

/-- `navigate`, for any target. -/
def navigateTo (path : ScopePath P) (target : P) : Except ScopeError (ScopePath P) :=
  if path.empty then .error (.emptyScopePath "Navigating")
  else if T.isValid target then .ok (path.navigate T target)
  else .error .invalidScope

/-- The path to a given leaf scope; an invalid leaf defines an empty path. -/
def construct : Option P → Except ScopeError (ScopePath P)
  | none => .ok INVALID
  | some leaf => navigateTo T (clear T INVALID) leaf

/-- The mutations of a path. -/
inductive Mutation (P : Type u)
  | navigate (target : P)
  | clear
  | goRoot
  | moveUp

/-- The path after a mutation. -/
def mutate (path : ScopePath P) : Mutation P → Except ScopeError (ScopePath P)
  | .navigate target => path.navigateTo T target
  | .clear => .ok (path.clear T)
  | .goRoot => path.goRoot.map Prod.snd
  | .moveUp => path.moveUp.map Prod.snd

/-- **The paths in use**: created for a valid scope, and changed by any sequence of mutations which never
makes the path empty. A mutation which raises leaves the path as it is. -/
inductive Built : ScopePath P → Prop
  | construct {leaf : P} {path : ScopePath P} : T.isValid leaf = true → construct T (some leaf) = .ok path →
    Built path
  | mutate {path path' : ScopePath P} {change : Mutation P} : Built path →
    path.mutate T change = .ok path' → path'.path_ ≠ [] → Built path'

end ScopePath

/-! ## The chain of scopes -/

namespace PlacementTree

variable {P : Type u} {T : PlacementTree P} {p q s : P} {path path' : List P}

/-- `IsScopeOf s c`: the scope enclosing `c` is `s`. -/
def IsScopeOf (T : PlacementTree P) (s c : P) : Prop := c ≠ T.root ∧ T.getScope c = some s

/-- `Encloses s c`: the scope is the given one, or one of its ancestors. -/
def Encloses (T : PlacementTree P) (s c : P) : Prop := ReflTransGen T.IsScopeOf s c

/-- **The chain of scopes** from root down to the given one. -/
inductive Chain (T : PlacementTree P) : P → List P → Prop
  | root : Chain T T.root [T.root]
  | inner {s c : P} {path : List P} : T.IsScopeOf s c → Chain T s path → Chain T c (path ++ [c])

section Chain

variable (h : T.Chain p path)

include h

theorem Chain.getLast? : path.getLast? = some p := by
  cases h with
  | root => rfl
  | inner => rw [getLast?_concat]

theorem Chain.ne_nil : path ≠ [] := by
  rintro rfl
  cases h.getLast?

theorem Chain.head? : path.head? = some T.root := by
  induction h with
  | root => rfl
  | inner _ hpath ih => rw [head?_append_of_ne_nil _ hpath.ne_nil, ih]

/-- There is just one chain to a scope. -/
theorem Chain.unique (h' : T.Chain p path') : path = path' := by
  induction h generalizing path' with
  | root =>
    cases h' with
    | root => rfl
    | inner hscope => exact absurd rfl hscope.1
  | inner hscope _ ih =>
    cases h' with
    | root => exact absurd rfl hscope.1
    | inner hscope' hpath =>
      obtain rfl := Option.some.inj (hscope.2.symm.trans hscope'.2)
      rw [ih hpath]

theorem Chain.exists_prefix (hs : s ∈ path) : ∃ upper, T.Chain s upper ∧ upper <+: path := by
  induction h with
  | root =>
    rw [mem_singleton.mp hs]
    exact ⟨_, .root, prefix_rfl⟩
  | @inner scope c path hscope hpath ih =>
    rcases mem_append.mp hs with hs | hs
    · obtain ⟨upper, hupper, hleading⟩ := ih hs
      exact ⟨upper, hupper, hleading.trans (prefix_append _ _)⟩
    · rw [mem_singleton.mp hs]
      exact ⟨_, .inner hscope hpath, prefix_rfl⟩

/-- Each part of a chain is the chain of its last element. -/
theorem Chain.of_prefix {upper : List P} (hleading : upper <+: path) (hne : upper ≠ []) :
    ∃ s ∈ path, T.Chain s upper := by
  induction h with
  | root =>
    have hupper : upper = [T.root] := by
      rcases prefix_cons_iff.mp hleading with hnil | ⟨rest, rfl, hrest⟩
      · exact absurd hnil hne
      · rw [prefix_nil.mp hrest]
    rw [hupper]
    exact ⟨_, mem_singleton_self _, .root⟩
  | @inner scope c path hscope hpath ih =>
    rcases prefix_concat_iff.mp hleading with rfl | hleading
    · exact ⟨c, mem_append_right _ (mem_singleton_self c), .inner hscope hpath⟩
    · obtain ⟨s, hs, hchain⟩ := ih hleading
      exact ⟨s, mem_append_left _ hs, hchain⟩

/-- On the chain are the scope itself and its ancestors. -/
theorem Chain.mem_iff : s ∈ path ↔ T.Encloses s p := by
  constructor
  · intro hs
    induction h with
    | root =>
      rw [mem_singleton.mp hs]
      exact .refl
    | inner hscope _ ih =>
      rcases mem_append.mp hs with hs | hs
      · exact (ih hs).tail hscope
      · rw [mem_singleton.mp hs]
        exact .refl
  · intro hencloses
    induction h with
    | root =>
      rcases ReflTransGen.cases_tail hencloses with heq | ⟨_, -, hlast⟩
      · exact mem_singleton.mpr heq.symm
      · exact absurd rfl hlast.1
    | @inner scope c path hscope hpath ih =>
      rcases ReflTransGen.cases_tail hencloses with rfl | ⟨q, hq, hlast⟩
      · exact mem_append_right _ (mem_singleton_self _)
      · obtain rfl := Option.some.inj (hlast.2.symm.trans hscope.2)
        exact mem_append_left _ (ih hq)

end Chain

theorem chain_explore [DecidableEq P] {steps : ℕ} (hp : T.isValid p = true) (hsteps : T.depth p < steps) :
    T.Chain p (T.explore steps p).reverse := by
  induction steps generalizing p with
  | zero => omega
  | succ steps ih =>
    obtain ⟨scope, hscope⟩ := Option.isSome_iff_exists.mp hp
    rw [explore, hscope]
    rcases T.getScope_eq p scope hscope with rfl | ⟨hdepth, hvalid⟩
    · obtain rfl := Option.some.inj (hscope.symm.trans T.getScope_root)
      simp only [if_pos]
      exact .root
    · -- any other scope is at a higher level
      have hne : scope ≠ p := by
        rintro rfl
        omega
      have hroot : p ≠ T.root := by
        rintro rfl
        rw [T.depth_root] at hdepth
        omega
      simp only [if_neg hne, reverse_cons]
      exact .inner ⟨hroot, hscope⟩ (ih hvalid (by omega))

theorem chain_discoverScopePath [DecidableEq P] (hp : T.isValid p = true) :
    T.Chain p (T.discoverScopePath p).reverse := chain_explore hp (Nat.lt_succ_self _)

end PlacementTree

/-! ## Comparing lists by position -/

section Positions

variable {α : Type u} [DecidableEq α] {xs ys zs : List α} {a b : α}

/-- The elements which are the same at the same position. -/
def matching : List α → List α → List α
  | a :: xs, b :: ys => if a = b then a :: matching xs ys else matching xs ys
  | _, _ => []

/-- What is a prefix of both is a prefix of this one. -/
structure LongestCommonPrefix (zs xs ys : List α) : Prop where
  left : zs <+: xs
  right : zs <+: ys
  longest : ∀ other, other <+: xs → other <+: ys → other <+: zs

omit [DecidableEq α] in
theorem LongestCommonPrefix.unique {zs' : List α} (h : LongestCommonPrefix zs xs ys)
    (h' : LongestCommonPrefix zs' xs ys) : zs = zs' := by
  have hle := (h'.longest zs h.left h.right)
  have hge := (h.longest zs' h'.left h'.right)
  exact hle.eq_of_length_le hge.length_le

omit [DecidableEq α] in
theorem LongestCommonPrefix.symm (h : LongestCommonPrefix zs xs ys) : LongestCommonPrefix zs ys xs :=
  ⟨h.right, h.left, fun other hys hxs => h.longest other hxs hys⟩

/-- Once an element is the same, all those before are the same. -/
def Coherent (xs ys : List α) : Prop := ∀ (i : ℕ) (a : α), xs[i]? = some a → ys[i]? = some a → xs.take i = ys.take i

theorem matching_eq_nil (h : ∀ (i : ℕ) (a : α), xs[i]? = some a → ys[i]? ≠ some a) : matching xs ys = [] := by
  induction xs generalizing ys with
  | nil => rfl
  | cons x xs ih =>
    cases ys with
    | nil => rfl
    | cons y ys =>
      have hne : x ≠ y := by
        rintro rfl
        exact h 0 x rfl rfl
      rw [matching, if_neg hne]
      exact ih fun i a => h (i + 1) a

/-- **Comparing all the positions** gives the longest common prefix of lists like that, although the
comparison does not stop at the first difference. -/
theorem Coherent.longestCommonPrefix (h : Coherent xs ys) : LongestCommonPrefix (matching xs ys) xs ys := by
  induction xs generalizing ys with
  | nil => exact ⟨ nil_prefix, nil_prefix, fun other hother _ => hother⟩
  | cons x xs ih =>
    cases ys with
    | nil => exact ⟨ nil_prefix, nil_prefix, fun other _ hother => hother⟩
    | cons y ys =>
      by_cases hxy : x = y
      · subst hxy
        have htail : Coherent xs ys := by
          intro i a hxs hys
          have htake := h (i + 1) a hxs hys
          exact (List.cons.inj htake).2
        have hrest := ih htail
        rw [matching, if_pos rfl]
        refine ⟨cons_prefix_cons.mpr ⟨rfl, hrest.left⟩, cons_prefix_cons.mpr ⟨rfl, hrest.right⟩, ?_⟩
        intro other hxs hys
        rcases prefix_cons_iff.mp hxs with rfl | ⟨rest, rfl, hleft⟩
        · exact nil_prefix
        · have hright := (cons_prefix_cons.mp hys).2
          exact cons_prefix_cons.mpr ⟨rfl, hrest.longest rest hleft hright⟩
      · -- the heads differ, thus no element is the same
        have hnil : matching (x :: xs) (y :: ys) = [] := by
          refine matching_eq_nil fun i a hxs hys => ?_
          cases i with
          | zero => exact hxy (Option.some.inj (hxs.trans hys.symm))
          | succ i =>
            have htake := h (i + 1) a hxs hys
            exact hxy (List.cons.inj htake).1
        rw [hnil]
        refine ⟨ nil_prefix, nil_prefix, fun other hxs hys => ?_⟩
        rcases prefix_cons_iff.mp hxs with rfl | ⟨rest, rfl, -⟩
        · exact nil_prefix
        · exact absurd (cons_prefix_cons.mp hys).1 hxy

theorem matching_concat (hlength : xs.length = ys.length) :
    matching (xs ++ [a]) (ys ++ [b]) = matching xs ys ++ if a = b then [a] else [] := by
  induction xs generalizing ys with
  | nil =>
    obtain rfl := length_eq_zero_iff.mp hlength.symm
    simp [matching]
  | cons x xs ih =>
    cases ys with
    | nil => cases hlength
    | cons y ys =>
      rw [cons_append, cons_append, matching, matching, ih (Nat.succ.inj hlength)]
      split <;> rfl

theorem matching_take (xs ys : List α) :
    matching (xs.take (min xs.length ys.length)) (ys.take (min xs.length ys.length)) = matching xs ys := by
  induction xs generalizing ys with
  | nil => simp [matching]
  | cons x xs ih =>
    cases ys with
    | nil => simp [matching]
    | cons y ys =>
      rw [length_cons, length_cons, Nat.add_min_add_right, take_succ_cons,
        take_succ_cons, matching, matching, ih ys]

end Positions

theorem PlacementTree.Chain.coherent {P : Type u} {T : PlacementTree P} {p q : P} {path path' : List P}
    (h : T.Chain p path) (h' : T.Chain q path') : Coherent path path' := by
  intro i a hi hi'
  have hpart : ∀ {r : P} {chain : List P}, T.Chain r chain → chain[i]? = some a → T.Chain a (chain.take (i + 1)) := by
    intro r chain hchain hget
    have hlast : (chain.take (i + 1)).getLast? = some a := by
      rw [take_add_one, hget, Option.toList_some, getLast?_concat]
    have hne : chain.take (i + 1) ≠ [] := by
      intro hnil
      rw [hnil] at hlast
      cases hlast
    obtain ⟨s, -, hs⟩ := hchain.of_prefix ( take_prefix _ _) hne
    obtain rfl := Option.some.inj (hs.getLast?.symm.trans hlast)
    exact hs
  have heq := (hpart h hi).unique (hpart h' hi')
  have htake := congrArg (List.take i) heq
  rwa [take_take, take_take, Nat.min_eq_left (Nat.le_succ i)] at htake

/-! ## Relations of paths -/

namespace ScopePath

variable {P : Type u} [DecidableEq P] {T : PlacementTree P} {path path1 path2 : ScopePath P} {leaf leaf1 leaf2 : P}

/-- The loop over all positions appends the elements which are the same. -/
theorem path_commonPrefix : (commonPrefix path1 path2).path_ = matching path1.path_ path2.path_ := by
  rw [← matching_take]
  -- invariant: this holds for the positions up to the current one
  have hloop : ∀ n ≤ min path1.length path2.length,
      ((List.range n).foldl
        (fun result pos =>
          match path1.path_[pos]?, path2.path_[pos]? with
          | some scope1, some scope2 => if scope1 = scope2 then result.appendScope scope1 else result
          | _, _ => result)
        (INVALID : ScopePath P)).path_ = matching (path1.path_.take n) (path2.path_.take n) := by
    intro n hn
    induction n with
    | zero => rfl
    | succ n ih =>
      have h1 : n < path1.path_.length := by
        have := Nat.min_le_left path1.length path2.length
        exact Nat.lt_of_lt_of_le hn this
      have h2 : n < path2.path_.length := by
        have := Nat.min_le_right path1.length path2.length
        exact Nat.lt_of_lt_of_le hn this
      have hlength : (path1.path_.take n).length = (path2.path_.take n).length := by
        rw [length_take_of_le (Nat.le_of_lt h1), length_take_of_le (Nat.le_of_lt h2)]
      rw [range_succ, foldl_concat, getElem?_eq_getElem h1, getElem?_eq_getElem h2,
        take_add_one, take_add_one, getElem?_eq_getElem h1, getElem?_eq_getElem h2,
        Option.toList_some, Option.toList_some, matching_concat hlength, ← ih (Nat.le_of_succ_le hn)]
      simp only
      split_ifs
      · rfl
      · rw [append_nil]
  exact hloop _ (Nat.le_refl _)

theorem contains_iff {aScope : P} : path.contains (some aScope) = true ↔ aScope ∈ path.path_ := by
  simp [contains]

/-- A path built by navigation is a chain. -/
theorem Built.chain (h : Built T path) : ∃ leaf, T.Chain leaf path.path_ := by
  induction h with
  | @construct leaf path hvalid hpath =>
    rw [ScopePath.construct, navigateTo, hvalid] at hpath
    cases hpath
    exact ⟨leaf, PlacementTree.chain_discoverScopePath hvalid⟩
  | @mutate path path' change _ hchange hnonempty ih =>
    obtain ⟨leaf, hchain⟩ := ih
    have hne : path.empty = false := isEmpty_eq_false_iff.mpr hchain.ne_nil
    cases change with
    | navigate target =>
      rw [ScopePath.mutate, navigateTo, hne] at hchange
      cases hvalid : T.isValid target with
      | false =>
        rw [hvalid] at hchange
        cases hchange
      | true =>
        rw [hvalid] at hchange
        cases hchange
        exact ⟨target, PlacementTree.chain_discoverScopePath hvalid⟩
    | clear =>
      cases hchange
      exact ⟨T.root, .root⟩
    | goRoot =>
      rw [ScopePath.mutate, ScopePath.goRoot, hne] at hchange
      cases hchange
      obtain ⟨s, -, hs⟩ := hchain.of_prefix ( take_prefix 1 _) hnonempty
      exact ⟨s, hs⟩
    | moveUp =>
      rw [ScopePath.mutate, ScopePath.moveUp, hne] at hchange
      cases hchange
      obtain ⟨s, -, hs⟩ := hchain.of_prefix ( take_prefix _ _) hnonempty
      exact ⟨s, hs⟩

omit [DecidableEq P] in
theorem getLeaf_eq (h : T.Chain leaf path.path_) : path.getLeaf = .ok leaf := by
  rw [getLeaf, h.getLast?]

/-- Containing all elements of another path is to have this one as a prefix. -/
theorem containsPath_iff (h1 : T.Chain leaf1 path1.path_) (h2 : T.Chain leaf2 path2.path_)
    (hvalid1 : path1.isValid = true) (hvalid2 : path2.isValid = true) :
    path1.containsPath path2 = true ↔ path2.path_ <+: path1.path_ := by
  have hne : path1.empty = false := isEmpty_eq_false_iff.mpr h1.ne_nil
  rw [containsPath, if_neg (by simp [hvalid2]), if_neg (by simp [hne]), if_neg (by simp [hvalid1]),
    all_eq_true]
  constructor
  · intro hall
    -- the leaf is on the path, and thus its chain is a part of it
    have hleaf : leaf2 ∈ path1.path_ :=
      contains_iff.mp (hall leaf2 (mem_reverse.mpr (mem_of_getLast? h2.getLast?)))
    obtain ⟨upper, hupper, hleading⟩ := h1.exists_prefix hleaf
    rwa [h2.unique hupper]
  · intro hleading scope hscope
    exact contains_iff.mpr (hleading.subset (mem_reverse.mp hscope))

/-- The common prefix of two chains. -/
theorem longest_commonPrefix (h1 : T.Chain leaf1 path1.path_) (h2 : T.Chain leaf2 path2.path_) :
    LongestCommonPrefix (commonPrefix path1 path2).path_ path1.path_ path2.path_ := by
  rw [path_commonPrefix]
  exact (h1.coherent h2).longestCommonPrefix

/-- The common prefix leads to the nearest common ancestor. -/
theorem commonPrefix_chain (h1 : T.Chain leaf1 path1.path_) (h2 : T.Chain leaf2 path2.path_) : ∃ ancestor,
    T.Chain ancestor (commonPrefix path1 path2).path_ ∧ T.Encloses ancestor leaf1 ∧ T.Encloses ancestor leaf2 ∧ ∀ s,
    T.Encloses s leaf1 → T.Encloses s leaf2 → T.Encloses s ancestor := by
  have hlongest := longest_commonPrefix h1 h2
  have hshared : ∀ s, T.Encloses s leaf1 → T.Encloses s leaf2 → s ∈ (commonPrefix path1 path2).path_ := by
    intro s hs1 hs2
    obtain ⟨upper, hupper, hprefix1⟩ := h1.exists_prefix (h1.mem_iff.mpr hs1)
    obtain ⟨upper', hupper', hprefix2⟩ := h2.exists_prefix (h2.mem_iff.mpr hs2)
    obtain rfl := hupper.unique hupper'
    exact (hlongest.longest upper hprefix1 hprefix2).subset (mem_of_getLast? hupper.getLast?)
  have hroot : ∀ {p : P} {path : List P}, T.Chain p path → T.Encloses T.root p := fun h =>
    h.mem_iff.mp (mem_of_head? h.head?)
  have hne : (commonPrefix path1 path2).path_ ≠ [] := by
    intro hnil
    have hmem := hshared T.root (hroot h1) (hroot h2)
    rw [hnil] at hmem
    cases hmem
  obtain ⟨ancestor, hmem1, hchain⟩ := h1.of_prefix hlongest.left hne
  have hmem2 := hlongest.right.subset (mem_of_getLast? hchain.getLast?)
  exact ⟨ancestor, hchain, h1.mem_iff.mp hmem1, h2.mem_iff.mp hmem2,
    fun s hs1 hs2 => hchain.mem_iff.mp (hshared s hs1 hs2)⟩

/-- Disjoint paths share just root. -/
theorem disjoint_iff (h1 : T.Chain leaf1 path1.path_) (h2 : T.Chain leaf2 path2.path_) : disjoint path1 path2 = true ↔
    path1.isValid = true ∧ path2.isValid = true ∧ (commonPrefix path1 path2).path_ = [T.root] := by
  have hne1 : path1.empty = false := isEmpty_eq_false_iff.mpr h1.ne_nil
  have hne2 : path2.empty = false := isEmpty_eq_false_iff.mpr h2.ne_nil
  rw [disjoint, hne1, hne2, if_neg (by simp), Bool.and_eq_true, Bool.and_eq_true, and_assoc]
  refine and_congr_right fun hvalid1 => and_congr_right fun hvalid2 => ?_
  have hlongest := longest_commonPrefix h1 h2
  have htwo : ∀ {path : ScopePath P} {leaf : P}, T.Chain leaf path.path_ → path.isValid = true →
      ∃ scope rest, path.path_ = T.root :: scope :: rest := by
    intro path leaf h hvalid
    have hhead := h.head?
    have hlength : 1 < path.path_.length := by simpa [isValid] using hvalid
    rcases hpath : path.path_ with _ | ⟨root, _ | ⟨scope, rest⟩⟩
    · rw [hpath] at hlength; simp at hlength
    · rw [hpath] at hlength; simp at hlength
    · rw [hpath] at hhead
      exact ⟨scope, rest, by rw [Option.some.inj hhead]⟩
  obtain ⟨scope1, rest1, heq1⟩ := htwo h1 hvalid1
  obtain ⟨scope2, rest2, heq2⟩ := htwo h2 hvalid2
  rw [path_commonPrefix, heq1, heq2] at hlongest ⊢
  have hsame : matching (T.root :: scope1 :: rest1) (T.root :: scope2 :: rest2) = [T.root] ↔ scope1 ≠ scope2 := by
    constructor
    · rintro heq rfl
      rw [heq] at hlongest
      have hboth : [T.root, scope1] <+: [T.root] :=
        hlongest.longest _ ⟨rest1, rfl⟩ ⟨rest2, rfl⟩
      have := hboth.length_le
      simp at this
    · intro hdiffer
      have hroot : [T.root] <+: matching (T.root :: scope1 :: rest1) (T.root :: scope2 :: rest2) :=
        hlongest.longest _ ⟨scope1 :: rest1, rfl⟩ ⟨scope2 :: rest2, rfl⟩
      obtain ⟨tail, htail⟩ := hroot
      cases tail with
      | nil => exact htail.symm
      | cons scope tail =>
        rw [← htail] at hlongest
        have hleft := (cons_prefix_cons.mp (cons_prefix_cons.mp hlongest.left).2).1
        have hright := (cons_prefix_cons.mp (cons_prefix_cons.mp hlongest.right).2).1
        exact absurd (hleft.symm.trans hright) hdiffer
  rw [hsame]
  simp

/-- **How two paths are related**: the first one is the chain of scopes down to its leaf; a scope is
contained when it is the leaf or an ancestor of it, and another path when it is a prefix; the common prefix
does not depend on the order, is the longest one, and leads to the nearest common ancestor; and paths are
disjoint when both are longer than root, with just root in common. -/
structure Relations (T : PlacementTree P) (p q : ScopePath P) : Prop where
  chain : ∃ leaf, p.getLeaf = .ok leaf ∧ T.Chain leaf p.path_
  contains : ∀ s leaf, T.isValid s = true → p.getLeaf = .ok leaf →
    (p.contains (some s) = true ↔ T.Encloses s leaf)
  containsPath : 1 < p.length → 1 < q.length → (p.containsPath q = true ↔ q.path_ <+: p.path_)
  symmetric : (commonPrefix p q).path_ = (commonPrefix q p).path_
  longest : LongestCommonPrefix (commonPrefix p q).path_ p.path_ q.path_
  nearest : ∃ leaf1 leaf2 ancestor, p.getLeaf = .ok leaf1 ∧ q.getLeaf = .ok leaf2 ∧
    T.Chain ancestor (commonPrefix p q).path_ ∧ T.Encloses ancestor leaf1 ∧ T.Encloses ancestor leaf2 ∧
    ∀ s, T.Encloses s leaf1 → T.Encloses s leaf2 → T.Encloses s ancestor
  disjoint : disjoint p q = true ↔
    1 < p.length ∧ 1 < q.length ∧ (commonPrefix p q).path_ = [T.root]

/-- **The relations of any two paths** in use. -/
theorem Built.relations {p q : ScopePath P} (hp : Built T p) (hq : Built T q) : Relations T p q := by
  obtain ⟨leaf1, h1⟩ := hp.chain
  obtain ⟨leaf2, h2⟩ := hq.chain
  have hlength : ∀ path : ScopePath P, path.isValid = true ↔ 1 < path.length := fun path => by
    simp [isValid, length]
  refine ⟨⟨leaf1, getLeaf_eq h1, h1⟩, ?_, ?_, ?_, longest_commonPrefix h1 h2, ?_, ?_⟩
  · intro s leaf _ hleaf
    obtain rfl := Except.ok.inj ((getLeaf_eq h1).symm.trans hleaf)
    rw [contains_iff, h1.mem_iff]
  · intro hp1 hq1
    exact containsPath_iff h1 h2 ((hlength p).mpr hp1) ((hlength q).mpr hq1)
  · exact (longest_commonPrefix h1 h2).unique (longest_commonPrefix h2 h1).symm
  · obtain ⟨ancestor, hchain, hleft, hright, hnearest⟩ := commonPrefix_chain h1 h2
    exact ⟨leaf1, leaf2, ancestor, getLeaf_eq h1, getLeaf_eq h2, hchain, hleft, hright, hnearest⟩
  · rw [disjoint_iff h1 h2, hlength, hlength]

/-- The path to the innermost of three scopes, and the path one level above. -/
theorem relations_threeScopes : Relations FocusState.threeScopes ⟨0, 0, [0, 1, 2]⟩ ⟨0, 0, [0, 1]⟩ := by
  have hpath : construct FocusState.threeScopes (some 2) = .ok ⟨0, 0, [0, 1, 2]⟩ := rfl
  have hinner : Built FocusState.threeScopes ⟨0, 0, [0, 1, 2]⟩ := .construct rfl hpath
  have hup : mutate FocusState.threeScopes ⟨0, 0, [0, 1, 2]⟩ .moveUp = .ok ⟨0, 0, [0, 1]⟩ := rfl
  exact hinner.relations (.mutate hinner hup (cons_ne_nil _ _))

end ScopePath

end Lumiera.Steam.MObject.Session
