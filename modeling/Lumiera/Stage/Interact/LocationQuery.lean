import Lumiera.Stage.Interact.UICoord

/-! # Queries for the structure of the UI

`LocationQuery` is the interface to find out about the structure of the UI. A `UITopology` is one such
structure: which child components exist at any position, and which window is the current one. Against
it, a path of UI coordinates can be anchored (`determineAnchor`) and its coverage determined
(`determineCoverage`): the number of components on the path which exist one below the other. -/

namespace Lumiera.Stage.Interact

open List

open Lib (Literal PathArray Symbol.any Symbol.empty Symbol.bottom isnil)

universe u

/-- `LocationQuery`: components form a tree, with the windows at the root and a name for each. A path can
be anchored at a window and has a coverage. -/
structure LocationQuery (Component : Type u) where
  name : Component → String
  windows : List Component
  children : Component → List Component
  /-- The name of a window, or bottom. -/
  determineAnchor : UICoord → String
  determineCoverage : UICoord → Nat

/-- **The structure of the UI**: the names of the child components at each position, a position
being given by the names on the path down to it. The windows are found at the root. Names are
proper, that is, neither empty nor a wildcard, and windows do not bear the names which have a
meaning of their own there. -/
structure UITopology where
  children : List String → List String
  /-- The current window, given that there are windows. -/
  currentWindow : String
  currentWindow_mem : children [] ≠ [] → currentWindow ∈ children []
  proper : ∀ pos, ∀ name ∈ children pos, ¬PathArray.IsFill name
  explicitWindows : ∀ name ∈ children [], name ∉ [uicFirstWindow, uicCurrentWindow, uicElided, Symbol.bottom]

namespace UITopology

/-! ## The interface -/

/-- The name of the window where the path is rooted; bottom, if it can not be anchored. -/
def determineAnchor (query : UITopology) (path : UICoord) : String :=
  if query.children [] = [] ∨ ¬path.isPresent uicWindow then Symbol.bottom
  else if uicFirstWindow = path.getWindow then (query.children []).headD Symbol.bottom
  else if uicCurrentWindow = path.getWindow then query.currentWindow
  else if path.getWindow ∉ query.children [] then Symbol.bottom
  else path.getWindow

/-- The name of the component to be found for the element at the given depth. -/
def resolveElm (query : UITopology) (path : UICoord) (depth : Nat) : String :=
  if depth = uicWindow then query.determineAnchor path else (path.content depth).getD Symbol.empty

/-- Descend along the path from a position in the UI, as long as the next component exists; at most
as many steps as given. -/
def drillDown (query : UITopology) (path : UICoord) : Nat → List String → List String
  | 0, pos => pos
  | rest + 1, pos =>
    if path.isPresent pos.length then
      (if query.resolveElm path pos.length ∈ query.children pos then
        query.drillDown path rest (pos ++ [query.resolveElm path pos.length])
      else pos)
    else pos

/-- **The coverage of a path**: the depth to which it is found in the UI. -/
def determineCoverage (query : UITopology) (path : UICoord) : Nat :=
    (query.drillDown path path.size []).length

/-- This structure, as seen through the interface: a component is given by its position. -/
def locationQuery (query : UITopology) : LocationQuery (List String) where
  name pos := pos.getLastD Symbol.empty
  windows := (query.children []).map fun name => [name]
  children pos := (query.children pos).map fun name => pos ++ [name]
  determineAnchor := query.determineAnchor
  determineCoverage := query.determineCoverage

/-! ## What coverage means -/

/-- The names of the components to be found for the first elements of the path. -/
def resolved (query : UITopology) (path : UICoord) (n : Nat) : List String :=
  (List.range n).map (query.resolveElm path)

/-- **The path is covered to a depth**: its first components are given explicitly, and each one
exists below those before it. -/
def Covers (query : UITopology) (path : UICoord) (n : Nat) : Prop :=
  ∀ i < n, path.isPresent i = true ∧ query.resolveElm path i ∈ query.children (query.resolved path i)

variable {query : UITopology} {path path' : UICoord} {n m : Nat}

theorem length_resolved : (query.resolved path n).length = n := by
  rw [resolved, length_map, length_range]

theorem resolved_succ : query.resolved path (n + 1) = query.resolved path n ++ [query.resolveElm path n] := by
  rw [resolved, range_succ, map_append]
  rfl

theorem Covers.mono (h : query.Covers path n) (hle : m ≤ n) : query.Covers path m :=
  fun i hi => h i (Nat.lt_of_lt_of_le hi hle)

theorem Covers.lt_size (h : query.Covers path n) {i : Nat} (hi : i < n) : i < path.size :=
  PathArray.lt_size_of_content (UICoord.isSome_of_isPresent (h i hi).1)

theorem Covers.le_size (h : query.Covers path n) : n ≤ path.size := by
  cases n with
  | zero => exact Nat.zero_le _
  | succ n => exact h.lt_size (Nat.lt_succ_self n)

theorem exists_drillDown (rest : Nat) (h : query.Covers path n) : ∃ k,
    query.drillDown path rest (query.resolved path n) = query.resolved path k ∧ query.Covers path k ∧
      (k = n + rest ∨ ¬query.Covers path (k + 1)) := by
  induction rest generalizing n with
  | zero => exact ⟨n, rfl, h, .inl rfl⟩
  | succ rest ih =>
    unfold drillDown
    rw [length_resolved]
    split_ifs with hpresent hexists
    · rw [← resolved_succ]
      have hcovers : query.Covers path (n + 1) := by
        intro i hi
        rcases Nat.lt_succ_iff_lt_or_eq.mp hi with hlt | rfl
        · exact h i hlt
        · exact ⟨hpresent, hexists⟩
      obtain ⟨k, hk, hcovers, hend⟩ := ih hcovers
      refine ⟨k, hk, hcovers, hend.imp_left fun heq => ?_⟩
      omega
    · exact ⟨n, rfl, h, .inr fun hnext => hexists (hnext n (Nat.lt_succ_self n)).2⟩
    · exact ⟨n, rfl, h, .inr fun hnext => hpresent (hnext n (Nat.lt_succ_self n)).1⟩

/-- Coverage is what it is meant to be: the path is covered to exactly the depths up to its coverage. -/
theorem covers_iff : query.Covers path n ↔ n ≤ query.determineCoverage path := by
  have hstart : query.Covers path 0 := fun i hi => absurd hi (Nat.not_lt_zero i)
  obtain ⟨k, hk, hcovers, hend⟩ := exists_drillDown path.size hstart
  have hcoverage : query.determineCoverage path = k := by
    exact (congrArg List.length hk).trans length_resolved
  rw [hcoverage]
  constructor
  · intro h
    by_contra hlt
    rcases hend with rfl | hend
    · have hle : n ≤ path.size := h.le_size
      omega
    · exact hend (h.mono (by omega))
  · exact hcovers.mono

theorem covers_determineCoverage : query.Covers path (query.determineCoverage path) :=
  covers_iff.mpr (Nat.le_refl _)

theorem determineCoverage_le_size : query.determineCoverage path ≤ path.size :=
  covers_determineCoverage.le_size

/-! ## Paths with the same components -/

theorem Covers.congr (h : query.Covers path n)
    (hsame : ∀ i < n, path'.isPresent i = true ∧ query.resolveElm path' i = query.resolveElm path i) :
    query.Covers path' n := by
  intro i hi
  obtain ⟨hpresent, hresolve⟩ := hsame i hi
  have hresolved : query.resolved path' i = query.resolved path i := by
    refine map_congr_left fun j hj => (hsame j ?_).2
    have hji : j < i := mem_range.mp hj
    omega
  refine ⟨hpresent, ?_⟩
  rw [hresolve, hresolved]
  exact (h i hi).2

theorem determineAnchor_congr (h : path'.content uicWindow = path.content uicWindow) :
    query.determineAnchor path' = query.determineAnchor path := by
  unfold determineAnchor UICoord.isPresent UICoord.getWindow
  rw [h]

theorem resolveElm_congr {i : Nat} (h : path'.content i = path.content i) :
    query.resolveElm path' i = query.resolveElm path i := by
  unfold resolveElm
  split_ifs with hi
  · subst hi
    exact determineAnchor_congr h
  · rw [h]

theorem Covers.of_content (h : query.Covers path n) (hsame : ∀ i < n, path'.content i = path.content i) :
    query.Covers path' n := by
  refine h.congr fun i hi => ⟨?_, resolveElm_congr (hsame i hi)⟩
  have hpresent : path.isPresent i = true := (h i hi).1
  unfold UICoord.isPresent at hpresent ⊢
  rwa [hsame i hi]

theorem Covers.normalise (h : query.Covers path n) : query.Covers path.normalise n :=
  h.of_content fun i hi => UICoord.content_normalise_of_isPresent (h i hi).1

theorem Covers.isSome (h : query.Covers path n) {i : Nat} (hi : i < n) : (path.content i).isSome = true :=
  UICoord.isSome_of_isPresent (h i hi).1

/-! ## Anchored paths -/

theorem determineAnchor_eq {name : String} (hmem : name ∈ query.children [])
    (h : path.content uicWindow = some name) : query.determineAnchor path = name := by
  have hwindow : path.getWindow = name := by
    rw [UICoord.getWindow, h]
    rfl
  have hpresent : path.isPresent uicWindow = true :=
      UICoord.isPresent_of_content (query.proper [] name hmem) h
  have hfirst : name ≠ uicFirstWindow := fun heq => query.explicitWindows name hmem (by simp [heq])
  have hcurrent : name ≠ uicCurrentWindow := fun heq => query.explicitWindows name hmem (by simp [heq])
  unfold determineAnchor
  rw [hwindow, if_neg, if_neg (Ne.symm hfirst), if_neg (Ne.symm hcurrent), if_neg (not_not_intro hmem)]
  rintro (hnone | habsent)
  · rw [hnone] at hmem
    cases hmem
  · exact habsent hpresent

theorem Covers.anchor_mem (h : query.Covers path n) (hn : 0 < n) : query.determineAnchor path ∈ query.children [] :=
  (h 0 hn).2

theorem Covers.window (h : query.Covers path n) :
    query.Covers (path.window (some (query.determineAnchor path))) n := by
  refine h.congr fun i hi => ?_
  by_cases hi0 : i = uicWindow
  · subst hi0
    have hmem : query.determineAnchor path ∈ query.children [] := h.anchor_mem hi
    have hcontent : (path.window (some (query.determineAnchor path))).content uicWindow =
        some (query.determineAnchor path) := by
      rw [UICoord.window, PathArray.content_setAt, if_pos rfl]
    exact ⟨UICoord.isPresent_of_content (query.proper [] _ hmem) hcontent, determineAnchor_eq hmem hcontent⟩
  · have hcontent : (path.window (some (query.determineAnchor path))).content i = path.content i := by
      rw [UICoord.window, PathArray.content_setAt, if_neg hi0]
    refine ⟨?_, resolveElm_congr hcontent⟩
    have hpresent : path.isPresent i = true := (h i hi).1
    unfold UICoord.isPresent at hpresent ⊢
    rwa [hcontent]

/-! ## Positions in the UI -/

/-- The names lead down to a component which exists. -/
inductive Exists (query : UITopology) : List String → Prop
  | root : Exists query []
  | child {pos : List String} {name : String} : Exists query pos → name ∈ query.children pos →
      Exists query (pos ++ [name])

theorem Exists.head_mem {pos : List String} {name : String} (hpos : query.Exists pos) (h : pos.head? = some name) :
    name ∈ query.children [] := by
  induction hpos with
  | root => cases h
  | @child pos last hpos hmem ih =>
    cases pos with
    | nil =>
      cases h
      exact hmem
    | cons first pos => exact ih h

theorem Exists.covers {pos : List String} (hpos : query.Exists pos) (h : ∀ i < pos.length, path.content i = pos[i]?) :
    query.Covers path pos.length ∧ query.resolved path pos.length = pos := by
  induction hpos with
  | root => exact ⟨fun i hi => absurd hi (Nat.not_lt_zero i), rfl⟩
  | @child pos name hpos hmem ih =>
    rw [length_append, length_singleton] at h ⊢
    have hinit : ∀ i < pos.length, path.content i = pos[i]? := by
      intro i hi
      rw [h i (by omega), getElem?_append_left hi]
    obtain ⟨hcovers, hresolved⟩ := ih hinit
    have hlast : path.content pos.length = some name := by
      rw [h pos.length (by omega), getElem?_append_right (Nat.le_refl _), Nat.sub_self]
      rfl
    -- a window is resolved to itself, and so is everything below
    have hresolve : query.resolveElm path pos.length = name := by
      unfold resolveElm
      split_ifs with hroot
      · have hnil : pos = [] := length_eq_zero_iff.mp hroot
        subst hnil
        exact determineAnchor_eq hmem hlast
      · rw [hlast]
        rfl
    constructor
    · intro i hi
      rcases Nat.lt_succ_iff_lt_or_eq.mp hi with hlt | rfl
      · exact hcovers i hlt
      · refine ⟨UICoord.isPresent_of_content (query.proper pos name hmem) hlast, ?_⟩
        rwa [hresolve, hresolved]
    · rw [resolved_succ, hresolved, hresolve]

end UITopology

end Lumiera.Stage.Interact
