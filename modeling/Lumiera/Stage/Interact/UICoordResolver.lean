import Lumiera.Base.Attempt
import Lumiera.Base.Machine
import Lumiera.Stage.Interact.PathResolution

/-! # Mutations of a resolver (`stage/interact/ui-coord-resolver.hpp`)

A resolver holds a path together with what is known about its resolution: the anchor, the depth of coverage, and
the solution found by the search. The mutations rewrite the path accordingly. Whatever is known was found out for
an earlier state of the path, so it has to be shown that it remains valid. Conditions which are asserted in
advance halt the program when violated. -/

namespace Lumiera.Stage.Interact

open List

open Lib (Literal PathArray Symbol.any Symbol.empty Symbol.bottom isnil)

universe u

variable {Component : Type u}

namespace UICoordResolver

/-! ## Query functions -/

/-- The path is covered at least partially. -/
def isCoveredPartially (r : UICoordResolver) : Bool := r.res.isResolved && decide (0 < r.res.depth)

/-- The path is covered completely. -/
def isCovered (r : UICoordResolver) : Bool := r.res.isResolved && decide (r.res.depth = r.uic.size)

variable (query : LocationQuery Component)

/-- `canCover`: performs the path resolution when necessary, and retains what was found. -/
def canCover (r : UICoordResolver) : Bool × UICoordResolver :=
  if r.isCovered then (true, r)
  else if r.res.isResolved && r.res.covfefe.isSome then (true, r)
  else
    let resolved := r.pathResolution query
    (resolved.1 || resolved.2.res.covfefe.isSome, resolved.2)

/-- `canAnchor`: likewise. -/
def canAnchor (r : UICoordResolver) : Bool × UICoordResolver :=
  if isAnchored r.res.anchor then (true, r)
  else if r.res.isResolved && r.res.covfefe.isSome then (true, r)
  else
    let resolved := r.pathResolution query
    (resolved.1 || isAnchored resolved.2.res.anchor, resolved.2)

/-! ## Mutations -/

/-- `cover`: truncates the path to the part covered. -/
def cover (r : UICoordResolver) : Attempt UICoordResolver Unit :=
  if r.isCoveredPartially && r.res.covfefe.isNone then
    if r.res.anchor.isSome then .ok () { r with uic := (r.uic.window r.res.anchor).truncateTo r.res.depth }
    else .halted
  else
    let r' := (r.canCover query).2
    if (r.canCover query).1 then
      match r'.res.covfefe with
      | none => .halted
      | some covfefe =>
        if r'.res.isResolved then .ok () ⟨covfefe, { r'.res with depth := covfefe.size, covfefe := none }⟩
        else .halted
    else if r'.res.isResolved && decide (r'.res.depth = 0) && r'.res.covfefe.isNone then
      .ok () { r' with uic := r'.uic.truncateTo 0 }
    else .halted

/-- `coverPartially`: resolves the wildcards, and retains what is not covered behind. -/
def coverPartially (r : UICoordResolver) : Attempt UICoordResolver Unit :=
  if r.isCoveredPartially && r.res.covfefe.isNone then
    if r.res.anchor.isSome then .ok () { r with uic := r.uic.window r.res.anchor } else .halted
  else
    let r' := (r.canCover query).2
    if (r.canCover query).1 then
      match r'.res.covfefe with
      | none => .halted
      | some covfefe =>
        if r'.res.isResolved && decide (covfefe.size ≤ r'.uic.size) then
          -- possibly overwrite placeholders by explicitly resolved info
          .ok () ⟨r'.uic.writeFrom 0 ((List.range covfefe.size).map covfefe.content),
            { r'.res with depth := covfefe.size, covfefe := none }⟩
        else .halted
    else if r'.res.isResolved && decide (r'.res.depth = 0) && r'.res.covfefe.isNone then
      .ok () { r' with uic := r'.uic.truncateTo 0 }
    else .halted

/-- `anchor`: makes the anchorage explicit, if possible. -/
def anchor (r : UICoordResolver) : UICoordResolver :=
  let r' := (r.canAnchor query).2
  if (r.canAnchor query).1 then { r' with uic := (r'.uic.window r'.res.anchor).normalise } else r'

/-- The path is covered, unless it is covered already. -/
def ensureCovered (r : UICoordResolver) : Attempt UICoordResolver Unit :=
  if r.isCovered then .ok () r else r.cover query

/-- `extend`, with a literal appended immediately behind the part covered. -/
def extendLiteral (r : UICoordResolver) (pathExtension : Literal) : Attempt UICoordResolver Unit :=
  (r.ensureCovered query).bind fun _ r =>
    let uic := r.uic.append pathExtension
    .ok () ⟨uic, { r.res with depth := query.determineCoverage uic }⟩

/-- The path to be extended with components at fixed positions, unless these would overwrite what is covered. -/
def extendPath (r : UICoordResolver) (partialExtensionSpec : UICoord) : Attempt UICoordResolver Unit :=
  let r' := (r.canCover query).2
  if (r.canCover query).1 = false then .ok () { r' with uic := partialExtensionSpec }
  else if r'.res.isResolved = false then .halted
  else
    let coverable := match r'.res.covfefe with
      | some covfefe => covfefe.size
      | none => r'.res.depth
    let extensionPos :=
      if partialExtensionSpec.elements = [] then coverable else partialExtensionSpec.startIdx
    if coverable > extensionPos then .raised r'
    else
      (r'.cover query).bind fun _ r =>
        .ok () { r with uic := (r.uic.writeFrom extensionPos partialExtensionSpec.elements).normalise }

/-- `extend`, with coordinates: starts over with a pristine resolution state. -/
def extend (r : UICoordResolver) (partialExtensionSpec : UICoord) : Attempt UICoordResolver Unit :=
  (r.extendPath query partialExtensionSpec).bind fun _ r => .ok () ((construct query r.uic).canCover query).2

/-- `existentiallyQuantify`: turns a wildcard into an elided element. -/
def existentiallyQuantify (r : UICoordResolver) (pos : Nat) : UICoordResolver :=
  if pos < r.uic.size ∧ r.uic.isPresent pos = false then { r with uic := r.uic.setAt pos (some uicElided) } else r

/-- The mutations of a resolver. -/
inductive Mutation
  | cover
  | coverPartially
  | anchor
  | extendLiteral (pathExtension : Literal)
  | extend (partialExtensionSpec : UICoord) (normalised : UICoord.Normalised partialExtensionSpec)
  | existentiallyQuantify (pos : Nat)

/-- Perform a mutation. -/
def perform (r : UICoordResolver) : Mutation → Attempt UICoordResolver Unit
  | .cover => r.cover query
  | .coverPartially => r.coverPartially query
  | .anchor => .ok () (r.anchor query)
  | .extendLiteral pathExtension => r.extendLiteral query pathExtension
  | .extend partialExtensionSpec _ => r.extend query partialExtensionSpec
  | .existentiallyQuantify pos => .ok () (r.existentiallyQuantify pos)

/-- **The sequences of mutations** which start with some pattern; one which raises leaves its state behind. -/
def machine (initial : UICoord) : Machine UICoordResolver Mutation where
  init r := r = construct query initial
  step r mutation r' := (r.perform query mutation).state = some r'

end UICoordResolver

/-! ## Windows -/

theorem sameLiteral_symm {l r : Literal} (h : sameLiteral l r = true) : sameLiteral r l = true :=
  decide_eq_true (of_decide_eq_true h).symm

theorem eq_of_sameLiteral {s t : String} (h : sameLiteral (some s) (some t) = true)
    (hshort : t.toUTF8.data.toList.length < 1000) : s = t := by
  have hsame : s.toUTF8.data.toList.take 1000 = t.toUTF8.data.toList.take 1000 := of_decide_eq_true h
  rw [take_of_length_le (Nat.le_of_lt hshort)] at hsame
  have hlength : s.toUTF8.data.toList.length < 1000 := by
    by_contra hlong
    have hlen := congrArg List.length hsame
    rw [length_take] at hlen
    omega
  rw [take_of_length_le (Nat.le_of_lt hlength)] at hsame
  exact String.toByteArray_inj.mp (ByteArray.ext (Array.toList_inj.mp hsame))

variable {name : String}

namespace UITopology

variable {query : UITopology} {path : UICoord} {n : Nat}

/-- The names of windows are told apart by a comparison as literals, which regards the first characters only. -/
def TellsWindowsApart (query : UITopology) : Prop :=
  ∀ name ∈ query.children [], ∀ other ∈ query.children [],
    sameLiteral (some name) (some other) = true → name = other

theorem bottom_not_mem : Symbol.bottom ∉ query.children [] := fun h => query.explicitWindows _ h (by simp)

theorem elided_not_mem : uicElided ∉ query.children [] := fun h => query.explicitWindows _ h (by simp)

theorem determineAnchor_cases (query : UITopology) (path : UICoord) :
    query.determineAnchor path = Symbol.bottom ∨ query.determineAnchor path ∈ query.children [] := by
  unfold determineAnchor
  split_ifs with hnone hfirst hcurrent hexists
  · exact .inl rfl
  · right
    obtain ⟨hne, -⟩ := not_or.mp hnone
    obtain ⟨name, names, hcons⟩ := exists_cons_of_ne_nil hne
    rw [hcons]
    exact mem_cons_self
  · right
    exact query.currentWindow_mem (not_or.mp hnone).1
  · exact .inr hexists
  · exact .inl rfl

theorem determineAnchor_of_absent (h : path.isPresent uicWindow = false) :
    query.determineAnchor path = Symbol.bottom := by
  unfold determineAnchor
  rw [if_pos (.inr (Bool.eq_false_iff.mp h))]

theorem determineAnchor_of_elided (h : path.content uicWindow = some uicElided) :
    query.determineAnchor path = Symbol.bottom := by
  have hwindow : path.getWindow = uicElided := by
    rw [UICoord.getWindow, h]
    rfl
  unfold determineAnchor
  rw [hwindow, if_neg (show uicFirstWindow ≠ uicElided by decide),
    if_neg (show uicCurrentWindow ≠ uicElided by decide), if_pos elided_not_mem, ite_self]

theorem window_of_anchor_mem (h : query.determineAnchor path ∈ query.children []) :
    path.isPresent uicWindow = true ∧ (path.getWindow = uicFirstWindow ∨ path.getWindow = uicCurrentWindow ∨
      path.getWindow = query.determineAnchor path) := by
  have hbottom : query.determineAnchor path ≠ Symbol.bottom := fun heq => bottom_not_mem (heq ▸ h)
  unfold determineAnchor at h hbottom ⊢
  split_ifs at h hbottom ⊢ with hnone hfirst hcurrent hexists
  · exact absurd rfl hbottom
  · exact ⟨not_not.mp (not_or.mp hnone).2, .inl hfirst.symm⟩
  · exact ⟨not_not.mp (not_or.mp hnone).2, .inr (.inl hcurrent.symm)⟩
  · exact ⟨not_not.mp (not_or.mp hnone).2, .inr (.inr rfl)⟩
  · exact absurd rfl hbottom

theorem content_window (name : String) (i : Nat) :
    (path.window (some name)).content i = if i = uicWindow then some name else path.content i :=
  PathArray.content_setAt _ _ _

theorem determineAnchor_window (h : name ∈ query.children []) :
    query.determineAnchor (path.window (some name)) = name :=
  determineAnchor_eq h (by rw [content_window, if_pos rfl])

theorem Covers.window_congr {path' : UICoord} (h : query.Covers (path.window (some name)) n)
    (hsame : ∀ i < n, i ≠ uicWindow → path'.content i = path.content i) : query.Covers (path'.window (some name)) n :=
    by
  refine h.of_content fun i hi => ?_
  rw [content_window, content_window]
  split
  · rfl
  · next hne => exact hsame i hi hne

theorem Covers.of_window (hanchor : query.determineAnchor path ∈ query.children [])
    (h : query.Covers (path.window (some (query.determineAnchor path))) n) : query.Covers path n := by
  refine h.congr fun i hi => ?_
  by_cases hroot : i = uicWindow
  · subst hroot
    refine ⟨(window_of_anchor_mem hanchor).1, ?_⟩
    unfold resolveElm
    rw [if_pos rfl, if_pos rfl, determineAnchor_window hanchor]
  · have hcontent : (path.window (some (query.determineAnchor path))).content i = path.content i := by
      rw [content_window, if_neg hroot]
    have hpresent : (path.window (some (query.determineAnchor path))).isPresent i = true := (h i hi).1
    refine ⟨?_, resolveElm_congr hcontent.symm⟩
    unfold UICoord.isPresent at hpresent ⊢
    rwa [hcontent] at hpresent

/-- A window to be found for a path is the one where the path is anchored. -/
theorem determineAnchor_of_match (hapart : query.TellsWindowsApart) {comp : List String}
    (hmatch : MatchesElm query.locationQuery path (some (query.determineAnchor path)) uicWindow comp)
    (hname : query.locationQuery.name comp ∈ query.children [])
    (hanchor : query.determineAnchor path ∈ query.children []) :
    query.determineAnchor path = query.locationQuery.name comp := by
  obtain ⟨hpresent, hwindow⟩ := window_of_anchor_mem hanchor
  obtain ⟨text, hfill, hcontent⟩ := UICoord.isPresent_iff.mp hpresent
  have htext : path.getWindow = text := by
    rw [UICoord.getWindow, hcontent]
    rfl
  rw [htext] at hwindow
  have helided : text ≠ uicElided := by
    rintro rfl
    rcases hwindow with h | h | h
    · exact absurd h (by decide)
    · exact absurd h (by decide)
    · exact elided_not_mem (h ▸ hanchor)
  rcases hmatch with hsame | hwild | hsame | ⟨-, -, hsame⟩
  · -- the window is given by its name
    rw [hcontent] at hsame
    rcases hwindow with rfl | rfl | rfl
    · have heq : query.locationQuery.name comp = uicFirstWindow :=
        eq_of_sameLiteral (sameLiteral_symm hsame) (by decide)
      exact absurd (by simp [heq]) (query.explicitWindows _ hname)
    · have heq : query.locationQuery.name comp = uicCurrentWindow :=
        eq_of_sameLiteral (sameLiteral_symm hsame) (by decide)
      exact absurd (by simp [heq]) (query.explicitWindows _ hname)
    · exact hapart _ hanchor _ hname hsame
  · -- a window which is present is no wildcard
    rw [hcontent] at hwild
    rcases Bool.or_eq_true_iff.mp hwild with hany | hempty
    · exact absurd (.inr (eq_of_sameLiteral hany (by decide))) hfill
    · exact absurd (.inl (eq_of_sameLiteral hempty (by decide))) hfill
  · rw [hcontent] at hsame
    exact absurd (eq_of_sameLiteral hsame (by decide)) helided
  · exact (hapart _ hname _ hanchor hsame).symm

end UITopology

/-! ## Consistency -/

namespace UICoordResolver

variable {query : UITopology} {r r' : UICoordResolver} {n : Nat}

/-- **The path is covered to some depth**, when rooted at the anchor, and by itself if its own window exists. -/
structure CoveredTo (query : UITopology) (r : UICoordResolver) (n : Nat) : Prop where
  anchored : query.Covers (r.uic.window r.res.anchor) n
  direct : query.determineAnchor r.uic ∈ query.children [] → query.Covers r.uic n

/-- **What is known about the resolution fits to the path.** -/
structure Consistent (query : UITopology) (r : UICoordResolver) : Prop where
  solid : r.uic.Solid
  anchored : ∃ name, r.res.anchor = some name ∧ (name = Symbol.bottom ∨ name ∈ query.children [])
  /-- A solution was found in the UI, and determines the anchor. -/
  solution : ∀ covfefe, r.res.covfefe = some covfefe →
    r.res.isResolved = true ∧ ExistingPath query covfefe ∧ r.res.anchor = some covfefe.getWindow
  /-- Without a solution, the anchor is the one of the path. -/
  own_anchor : r.res.covfefe = none → r.uic.size ≠ 0 → r.res.anchor = some (query.determineAnchor r.uic)
  covered : 0 < r.res.depth → ∃ name ∈ query.children [], r.res.anchor = some name ∧
    query.Covers (r.uic.window (some name)) r.res.depth ∧
      (query.determineAnchor r.uic ∈ query.children [] → query.determineAnchor r.uic = name)

variable {uic : UICoord}

theorem covered_of_determineCoverage (h : 0 < query.determineCoverage uic) :
    ∃ name ∈ query.children [], some (query.determineAnchor uic) = some name ∧
      query.Covers (uic.window (some name)) (query.determineCoverage uic) ∧
        (query.determineAnchor uic ∈ query.children [] → query.determineAnchor uic = name) := by
  have hcovers : query.Covers uic (query.determineCoverage uic) := UITopology.covers_determineCoverage
  exact ⟨_, hcovers.anchor_mem h, rfl, hcovers.window, fun _ => rfl⟩

/-- What consistency means for the coverage. -/
theorem Consistent.coveredTo (h : Consistent query r) : r.CoveredTo query r.res.depth := by
  rcases Nat.eq_zero_or_pos r.res.depth with hzero | hpos
  · rw [hzero]
    exact ⟨fun i hi => absurd hi (Nat.not_lt_zero i), fun _ i hi => absurd hi (Nat.not_lt_zero i)⟩
  · obtain ⟨name, hmem, hanchor, hcovers, hown⟩ := h.covered hpos
    refine ⟨hanchor ▸ hcovers, fun hwindow => ?_⟩
    rw [← hown hwindow] at hcovers
    exact hcovers.of_window hwindow

theorem construct_consistent (query : UITopology) (hsolid : uic.Solid) :
    Consistent query (construct query.locationQuery uic) := by
  have hanchored : ∃ name, some (query.determineAnchor uic) = some name ∧
      (name = Symbol.bottom ∨ name ∈ query.children []) :=
    ⟨_, rfl, query.determineAnchor_cases uic⟩
  unfold construct attemptTrivialResolution
  split_ifs
  · exact ⟨hsolid, hanchored, nofun, fun _ _ => rfl, covered_of_determineCoverage⟩
  · exact ⟨hsolid, hanchored, nofun, fun _ _ => rfl, covered_of_determineCoverage⟩
  · exact ⟨hsolid, hanchored, nofun, fun _ _ => rfl, fun hpos => absurd hpos (Nat.lt_irrefl 0)⟩

theorem getWindow_of_search (hapart : query.TellsWindowsApart) {covfefe : UICoord}
    (hsearch : searchSolution query.locationQuery uic (some (query.determineAnchor uic)) = some covfefe)
    (hanchor : query.determineAnchor uic ∈ query.children []) : query.determineAnchor uic = covfefe.getWindow := by
  have hexisting := UITopology.existingPath_of_search hsearch
  rcases searchSolution_spec query.locationQuery uic (some (query.determineAnchor uic)) with
    ⟨hnone, -⟩ | ⟨found, path, hsome, hfirst, hnames⟩
  · rw [hnone] at hsearch
    cases hsearch
  · obtain rfl := Option.some.inj (hsearch.symm.trans hsome)
    obtain ⟨last, hlast, -⟩ := hfirst.accepts.confirmed
    cases path with
    | nil => cases hlast
    | cons comp path =>
      have hwindow : covfefe.getWindow = query.locationQuery.name comp := by
        rw [UICoord.getWindow, hnames.content_eq]
        rfl
      rw [hwindow]
      have hmem := hexisting.getWindow_mem.1
      rw [hwindow] at hmem
      exact UITopology.determineAnchor_of_match hapart (hfirst.accepts.matched 0 comp rfl) hmem hanchor

theorem pathResolution_of_none {query : LocationQuery Component}
    (h : searchSolution query r.uic r.res.anchor = none) :
    r.pathResolution query = (false, ⟨r.uic, { r.res with isResolved := true }⟩) := by
  simp only [UICoordResolver.pathResolution, h]

/-- The depth which is known after a solution was found. -/
def depthResolved (query : LocationQuery Component) (r : UICoordResolver) : Nat :=
  if r.res.depth ≠ 0 then r.res.depth
  else if query.determineCoverage r.uic ≠ 0 then query.determineCoverage r.uic
  else 1

theorem pathResolution_of_some {query : LocationQuery Component} {covfefe : UICoord}
    (h : searchSolution query r.uic r.res.anchor = some covfefe) :
    r.pathResolution query = (decide (covfefe.size = r.uic.size),
      ⟨r.uic, ⟨some covfefe.getWindow, depthResolved query r, some covfefe, true⟩⟩) := by
  have hdepth : (if (if r.res.depth = 0 then query.determineCoverage r.uic else r.res.depth) = 0 ∧
      (some covfefe.getWindow).isSome = true then 1
      else if r.res.depth = 0 then query.determineCoverage r.uic else r.res.depth) = depthResolved query r := by
    unfold depthResolved
    by_cases hzero : r.res.depth = 0
    · rw [if_pos hzero, if_neg (not_not_intro hzero)]
      by_cases hnone : query.determineCoverage r.uic = 0
      · rw [if_pos ⟨hnone, rfl⟩, if_neg (not_not_intro hnone)]
      · rw [if_neg fun h => hnone h.1, if_pos hnone]
    · rw [if_neg hzero, if_neg fun h => hzero h.1, if_pos hzero]
  simp only [UICoordResolver.pathResolution, h]
  rw [← hdepth]

theorem Consistent.covered_depthResolved (h : Consistent query r)
    (hname : name ∈ query.children []) (hanchor : r.res.anchor = some (query.determineAnchor r.uic))
    (hown : query.determineAnchor r.uic ∈ query.children [] → query.determineAnchor r.uic = name) :
    query.Covers (r.uic.window (some name)) (depthResolved query.locationQuery r) := by
  unfold depthResolved
  split
  · next hpos =>
      obtain ⟨root, hroot, hsame, hcovers, -⟩ := h.covered (Nat.pos_of_ne_zero hpos)
      have heq : query.determineAnchor r.uic = root := Option.some.inj (hanchor.symm.trans hsame)
      rw [← hown (heq ▸ hroot), heq]
      exact hcovers
  · split
    · next hpos =>
        obtain ⟨root, hroot, hsame, hcovers, -⟩ := covered_of_determineCoverage (Nat.pos_of_ne_zero hpos)
        have heq : query.determineAnchor r.uic = root := Option.some.inj hsame
        rw [← hown (heq ▸ hroot), heq]
        exact hcovers
    · -- nothing is known but the window
      intro i hi
      obtain rfl : i = uicWindow := Nat.lt_one_iff.mp hi
      have hcontent : (r.uic.window (some name)).content uicWindow = some name := by
        rw [UITopology.content_window, if_pos rfl]
      refine ⟨UICoord.isPresent_of_content (query.proper [] name hname) hcontent, ?_⟩
      unfold UITopology.resolveElm
      rw [UITopology.determineAnchor_window hname]
      exact hname

/-- Path resolution retains consistency, and the path. -/
theorem Consistent.pathResolution (hapart : query.TellsWindowsApart) (h : Consistent query r)
    (hnone : r.res.covfefe = none) :
    Consistent query (r.pathResolution query.locationQuery).2 ∧
      (r.pathResolution query.locationQuery).2.uic = r.uic ∧
      ((r.pathResolution query.locationQuery).1 = true →
        (r.pathResolution query.locationQuery).2.res.covfefe.isSome = true) := by
  cases hsearch : searchSolution query.locationQuery r.uic r.res.anchor with
  | none =>
    rw [pathResolution_of_none hsearch]
    refine ⟨⟨h.solid, h.anchored, fun covfefe hsome => ?_, h.own_anchor, h.covered⟩, rfl, nofun⟩
    cases hnone.symm.trans hsome
  | some covfefe =>
    have hexisting := UITopology.existingPath_of_search hsearch
    obtain ⟨hwindow, -⟩ := hexisting.getWindow_mem
    have hsize : r.uic.size ≠ 0 := by
      intro hzero
      rcases searchSolution_spec query.locationQuery r.uic r.res.anchor with ⟨hno, -⟩ | ⟨_, path, -, hfirst, -⟩
      · cases hno.symm.trans hsearch
      · obtain ⟨last, hlast, -⟩ := hfirst.accepts.confirmed
        have hle := hfirst.accepts.length_le
        rw [hzero] at hle
        rw [length_eq_zero_iff.mp (Nat.le_zero.mp hle)] at hlast
        cases hlast
    have hown := h.own_anchor hnone hsize
    have hsame := getWindow_of_search hapart (hown ▸ hsearch)
    rw [pathResolution_of_some hsearch]
    refine ⟨⟨h.solid, ⟨_, rfl, .inr hwindow⟩, fun found hsome => ?_, nofun, fun _ => ?_⟩, rfl, fun _ => rfl⟩
    · cases hsome
      exact ⟨rfl, hexisting, rfl⟩
    · exact ⟨covfefe.getWindow, hwindow, rfl, h.covered_depthResolved hwindow hown hsame, hsame⟩

theorem Consistent.covfefe_eq_none (h : Consistent query r)
    (hknown : ¬ (r.res.isResolved && r.res.covfefe.isSome) = true) : r.res.covfefe = none := by
  cases hsome : r.res.covfefe with
  | none => rfl
  | some covfefe =>
    rw [(h.solution covfefe hsome).1, hsome] at hknown
    exact absurd rfl hknown

theorem canCover_uic (query : LocationQuery Component) (r : UICoordResolver) : (r.canCover query).2.uic = r.uic := by
  unfold UICoordResolver.canCover
  split
  · rfl
  · split
    · rfl
    · cases hsearch : searchSolution query r.uic r.res.anchor with
      | none => rw [pathResolution_of_none hsearch]
      | some covfefe => rw [pathResolution_of_some hsearch]

/-- The query `canCover` retains consistency. -/
theorem Consistent.canCover (hapart : query.TellsWindowsApart) (h : Consistent query r) :
    Consistent query (r.canCover query.locationQuery).2 := by
  unfold UICoordResolver.canCover
  split
  · exact h
  · split
    · exact h
    · next hknown => exact (h.pathResolution hapart (h.covfefe_eq_none hknown)).1

theorem Consistent.window_of_isAnchored (h : Consistent query r) (hanchored : isAnchored r.res.anchor = true) :
    ∃ name ∈ query.children [], r.res.anchor = some name := by
  obtain ⟨name, hanchor, rfl | hmem⟩ := h.anchored
  · rw [hanchor] at hanchored
    exact absurd hanchored (by decide)
  · exact ⟨name, hmem, hanchor⟩

theorem Consistent.window_of_covfefe (h : Consistent query r) (hsome : r.res.covfefe.isSome = true) :
    ∃ name ∈ query.children [], r.res.anchor = some name := by
  obtain ⟨covfefe, hcovfefe⟩ := Option.isSome_iff_exists.mp hsome
  obtain ⟨-, hexisting, hanchor⟩ := h.solution covfefe hcovfefe
  exact ⟨covfefe.getWindow, hexisting.getWindow_mem.1, hanchor⟩

/-- **The query `canAnchor`** retains consistency and the path, and is successful only if there is a window to
anchor the path at. -/
theorem Consistent.canAnchor (hapart : query.TellsWindowsApart) (h : Consistent query r) :
    Consistent query (r.canAnchor query.locationQuery).2 ∧ ((r.canAnchor query.locationQuery).1 = true →
      ∃ name ∈ query.children [], (r.canAnchor query.locationQuery).2.res.anchor = some name) := by
  unfold UICoordResolver.canAnchor
  split
  · next hanchored => exact ⟨h, fun _ => h.window_of_isAnchored hanchored⟩
  · split
    · next hknown => exact ⟨h, fun _ => h.window_of_covfefe (Bool.and_eq_true_iff.mp hknown).2⟩
    · next hknown =>
        obtain ⟨hconsistent, -, hsuccess⟩ := h.pathResolution hapart (h.covfefe_eq_none hknown)
        refine ⟨hconsistent, fun hcan => ?_⟩
        rcases Bool.or_eq_true_iff.mp hcan with hfound | hanchored
        · exact hconsistent.window_of_covfefe (hsuccess hfound)
        · exact hconsistent.window_of_isAnchored hanchored

/-! ## Each of the mutations -/

theorem Consistent.of_explicit (hsolid : r.uic.Solid) (hname : name ∈ query.children [])
    (hcontent : r.uic.content uicWindow = some name) (hanchor : r.res.anchor = some name)
    (hnone : r.res.covfefe = none) (hcovers : query.Covers r.uic r.res.depth) : Consistent query r := by
  have hown : query.determineAnchor r.uic = name := UITopology.determineAnchor_eq hname hcontent
  refine ⟨hsolid, ⟨name, hanchor, .inr hname⟩, fun covfefe hsome => ?_, fun _ _ => hown ▸ hanchor, fun _ => ?_⟩
  · cases hnone.symm.trans hsome
  · exact ⟨name, hname, hanchor, hown ▸ hcovers.window, fun _ => hown⟩

theorem solid_window (h : uic.Solid) (name : String) : (uic.window (some name)).Solid :=
  h.setAt (Nat.zero_le _) name

theorem Consistent.truncate (h : Consistent query r) (hdepth : r.res.depth = 0) :
    Consistent query { r with uic := r.uic.truncateTo 0 } := by
  have hused : ∀ k < 0, (r.uic.content k).isSome = true := fun k hk => absurd hk (Nat.not_lt_zero k)
  refine ⟨h.solid.truncateTo hused, h.anchored, h.solution, fun _ hsize => ?_, fun hpos => ?_⟩
  · exact absurd (h.solid.size_truncateTo hused) hsize
  · have hdepth' : r.res.depth > 0 := hpos
    omega

/-- To cover the path results in a path which is covered. -/
theorem Consistent.cover (hapart : query.TellsWindowsApart) (h : Consistent query r) :
    (r.cover query.locationQuery).Yields fun r' => Consistent query r' ∧ r'.isCovered = true := by
  unfold UICoordResolver.cover
  split
  · next hpartially =>
      obtain ⟨hcovered, hnone⟩ := Bool.and_eq_true_iff.mp hpartially
      obtain ⟨hresolved, hpos⟩ := Bool.and_eq_true_iff.mp hcovered
      obtain ⟨name, hname, hanchor, hcovers, hown⟩ := h.covered (of_decide_eq_true hpos)
      rw [hanchor, Option.isSome_some, if_pos rfl, Attempt.yields_ok]
      have hsolid : (r.uic.window (some name)).Solid := solid_window h.solid name
      have hused : ∀ k < r.res.depth, ((r.uic.window (some name)).content k).isSome = true :=
        fun k hk => hcovers.isSome hk
      have hcontent : ∀ i < r.res.depth, ((r.uic.window (some name)).truncateTo r.res.depth).content i =
          (r.uic.window (some name)).content i := by
        intro i hi
        rw [hsolid.content_truncateTo, if_pos hi]
      have hwindow : ((r.uic.window (some name)).truncateTo r.res.depth).content uicWindow = some name := by
        rw [hcontent uicWindow (of_decide_eq_true hpos), UITopology.content_window, if_pos rfl]
      refine ⟨.of_explicit (hsolid.truncateTo hused) hname hwindow hanchor (Option.isNone_iff_eq_none.mp hnone)
        (hcovers.of_content hcontent), ?_⟩
      exact Bool.and_eq_true_iff.mpr ⟨hresolved, decide_eq_true (hsolid.size_truncateTo hused).symm⟩
  · have hconsistent := h.canCover hapart
    dsimp only
    generalize (r.canCover query.locationQuery).2 = r' at hconsistent ⊢
    split
    · split
      · exact Attempt.yields_halted
      · next covfefe hcovfefe =>
          obtain ⟨hresolved, hexisting, hanchor⟩ := hconsistent.solution covfefe hcovfefe
          obtain ⟨hname, hwindow⟩ := hexisting.getWindow_mem
          rw [if_pos hresolved, Attempt.yields_ok]
          refine ⟨.of_explicit hexisting.solid hname hwindow hanchor rfl hexisting.covers, ?_⟩
          exact Bool.and_eq_true_iff.mpr ⟨hresolved, decide_eq_true rfl⟩
    · split
      · next hnothing =>
          obtain ⟨hknown, -⟩ := Bool.and_eq_true_iff.mp hnothing
          obtain ⟨hresolved, hdepth⟩ := Bool.and_eq_true_iff.mp hknown
          have hsize : (r'.uic.truncateTo 0).size = 0 :=
            hconsistent.solid.size_truncateTo fun k hk => absurd hk (Nat.not_lt_zero k)
          rw [Attempt.yields_ok]
          refine ⟨hconsistent.truncate (of_decide_eq_true hdepth), Bool.and_eq_true_iff.mpr ⟨hresolved, ?_⟩⟩
          exact decide_eq_true ((of_decide_eq_true hdepth).trans hsize.symm)
      · exact Attempt.yields_halted

theorem map_content_range {path : UICoord} (hused : ∀ i < n, (path.content i).isSome = true) :
    (List.range n).map path.content = ((List.range n).map fun i => (path.content i).getD "").map some := by
  rw [map_map]
  refine map_congr_left fun i hi => ?_
  obtain ⟨name, hsome⟩ := Option.isSome_iff_exists.mp (hused i (mem_range.mp hi))
  show path.content i = some ((path.content i).getD "")
  rw [hsome]
  rfl

/-- To cover the path partially. -/
theorem Consistent.coverPartially (hapart : query.TellsWindowsApart) (h : Consistent query r) :
    (r.coverPartially query.locationQuery).Yields (Consistent query) := by
  unfold UICoordResolver.coverPartially
  split
  · next hpartially =>
      obtain ⟨hcovered, hnone⟩ := Bool.and_eq_true_iff.mp hpartially
      obtain ⟨-, hpos⟩ := Bool.and_eq_true_iff.mp hcovered
      obtain ⟨name, hname, hanchor, hcovers, -⟩ := h.covered (of_decide_eq_true hpos)
      rw [hanchor, Option.isSome_some, if_pos rfl, Attempt.yields_ok]
      have hwindow : (r.uic.window (some name)).content uicWindow = some name := by
        rw [UITopology.content_window, if_pos rfl]
      exact .of_explicit (solid_window h.solid name) hname hwindow hanchor
        (Option.isNone_iff_eq_none.mp hnone) hcovers
  · have hconsistent := h.canCover hapart
    dsimp only
    generalize (r.canCover query.locationQuery).2 = r' at hconsistent ⊢
    split
    · split
      · exact Attempt.yields_halted
      · next covfefe hcovfefe =>
          obtain ⟨-, hexisting, hanchor⟩ := hconsistent.solution covfefe hcovfefe
          obtain ⟨hname, hwindow⟩ := hexisting.getWindow_mem
          split
          · rw [Attempt.yields_ok]
            -- the solution takes the place of the components up to its length
            have hcontent : ∀ i < covfefe.size,
                (r'.uic.writeFrom 0 ((List.range covfefe.size).map covfefe.content)).content i =
                  covfefe.content i := by
              intro i hi
              have hrange : 0 ≤ i ∧ i < 0 + ((List.range covfefe.size).map covfefe.content).length := by
                rw [length_map, length_range]
                omega
              rw [PathArray.content_writeFrom, if_pos hrange, Nat.sub_zero, getElem?_map,
                getElem?_range hi]
              rfl
            have hsolid : (r'.uic.writeFrom 0 ((List.range covfefe.size).map covfefe.content)).Solid := by
              rw [map_content_range fun i hi => hexisting.covers.isSome hi]
              exact hconsistent.solid.writeFrom (Nat.zero_le _) _
            exact .of_explicit hsolid hname ((hcontent uicWindow hexisting.size_pos).trans hwindow) hanchor rfl
              (hexisting.covers.of_content hcontent)
          · exact Attempt.yields_halted
    · split
      · next hnothing =>
          obtain ⟨hknown, -⟩ := Bool.and_eq_true_iff.mp hnothing
          obtain ⟨-, hdepth⟩ := Bool.and_eq_true_iff.mp hknown
          rw [Attempt.yields_ok]
          exact hconsistent.truncate (of_decide_eq_true hdepth)
      · exact Attempt.yields_halted

/-- To anchor the path. -/
theorem Consistent.anchor (hapart : query.TellsWindowsApart) (h : Consistent query r) :
    Consistent query (r.anchor query.locationQuery) := by
  obtain ⟨hconsistent, hsuccess⟩ := h.canAnchor hapart
  unfold UICoordResolver.anchor
  dsimp only
  generalize (r.canAnchor query.locationQuery).2 = r' at hconsistent hsuccess ⊢
  split
  · next hcan =>
      obtain ⟨name, hname, hanchor⟩ := hsuccess hcan
      rw [hanchor]
      have hcontent : ((r'.uic.window (some name)).normalise).content uicWindow = some name := by
        refine (PathArray.content_normalise (query.proper [] name hname)).mpr ?_
        rw [UITopology.content_window, if_pos rfl]
      have hown : query.determineAnchor ((r'.uic.window (some name)).normalise) = name :=
        UITopology.determineAnchor_eq hname hcontent
      refine ⟨PathArray.solid_normalise, ⟨name, hanchor, .inr hname⟩, hconsistent.solution, fun _ _ => ?_,
        fun hpos => ?_⟩
      · exact hanchor.trans (congrArg some hown.symm)
      · obtain ⟨root, -, hsame, hcovers, -⟩ := hconsistent.covered hpos
        cases Option.some.inj (hanchor.symm.trans hsame)
        have hnormalised := hcovers.normalise.window
        rw [hown] at hnormalised
        exact ⟨name, hname, hanchor, hnormalised, fun _ => hown⟩
  · exact hconsistent

/-- To extend the path with a literal, when something is covered. -/
theorem Consistent.extendLiteral (hapart : query.TellsWindowsApart) (h : Consistent query r) (pathExtension : Literal)
    (hcovered : (r.ensureCovered query.locationQuery).Yields fun r' => r'.uic.size ≠ 0) :
    (r.extendLiteral query.locationQuery pathExtension).Yields (Consistent query) := by
  have hensured : (r.ensureCovered query.locationQuery).Yields fun r' =>
      Consistent query r' ∧ r'.isCovered = true := by
    unfold ensureCovered
    split
    · next hcovered => exact Attempt.yields_ok.mpr ⟨h, hcovered⟩
    · exact h.cover hapart
  have hboth : (r.ensureCovered query.locationQuery).Yields fun r' =>
      Consistent query r' ∧ r'.isCovered = true ∧ r'.uic.size ≠ 0 := fun r' hr' =>
    ⟨(hensured r' hr').1, (hensured r' hr').2, hcovered r' hr'⟩
  refine hboth.bind (fun r' hr' => hr'.1) fun _ r' ⟨hconsistent, hcovers, hsize⟩ => ?_
  rw [Attempt.yields_ok]
  have hdepth : r'.res.depth = r'.uic.size := of_decide_eq_true (Bool.and_eq_true_iff.mp hcovers).2
  obtain ⟨name, hname, hanchor, hcovered, hown⟩ := hconsistent.covered (by omega)
  -- the window remains, as something is covered
  have hwindow : (r'.uic.append pathExtension).content uicWindow = r'.uic.content uicWindow := by
    unfold UICoord.append
    split
    · rfl
    · have hpos : uicWindow < r'.uic.size := Nat.pos_of_ne_zero hsize
      rw [UICoord.content_setTailSequence, if_pos hpos]
  have hsame : query.determineAnchor (r'.uic.append pathExtension) = query.determineAnchor r'.uic :=
    UITopology.determineAnchor_congr hwindow
  refine ⟨UICoord.solid_append hconsistent.solid _, hconsistent.anchored, hconsistent.solution, fun hnone _ => ?_,
    fun hpos => ?_⟩
  · rw [hsame]
    exact hconsistent.own_anchor hnone hsize
  · have hmem : query.determineAnchor r'.uic ∈ query.children [] :=
      hsame ▸ UITopology.covers_determineCoverage.anchor_mem hpos
    have hroot : query.determineAnchor (r'.uic.append pathExtension) = name := hsame.trans (hown hmem)
    refine ⟨name, hname, hanchor, ?_, fun _ => hroot⟩
    rw [← hroot]
    exact UITopology.covers_determineCoverage.window

theorem cover_ne_raised {query : LocationQuery Component} : r.cover query ≠ .raised r' := by
  unfold UICoordResolver.cover
  dsimp only
  split_ifs
  · exact nofun
  · exact nofun
  · split <;> exact nofun
  · split <;> exact nofun
  · exact nofun
  · exact nofun

theorem coverPartially_ne_raised {query : LocationQuery Component} : r.coverPartially query ≠ .raised r' := by
  unfold UICoordResolver.coverPartially
  dsimp only
  split_ifs
  · exact nofun
  · exact nofun
  · split
    · exact nofun
    · split <;> exact nofun
  · exact nofun
  · exact nofun

theorem extendLiteral_ne_raised {query : LocationQuery Component} {pathExtension : Literal} :
    r.extendLiteral query pathExtension ≠ .raised r' := by
  unfold UICoordResolver.extendLiteral ensureCovered
  split
  · exact nofun
  · cases hcover : r.cover query with
    | ok _ covered => exact nofun
    | raised covered => exact absurd hcover cover_ne_raised
    | halted => exact nofun

variable {spec : UICoord}

theorem extendPath_solid (query : UITopology) (r : UICoordResolver) (hspec : UICoord.Normalised spec) :
    match r.extendPath query.locationQuery spec with
    | .ok _ r' => r'.uic.Solid
    | .raised r' => r' = (r.canCover query.locationQuery).2
    | .halted => True := by
  unfold UICoordResolver.extendPath
  dsimp only
  generalize (r.canCover query.locationQuery).2 = r'
  generalize (if spec.elements = [] then _ else spec.startIdx) = extensionPos
  split_ifs with hcan hresolved hbeyond
  · exact hspec.solid
  · trivial
  · rfl
  · cases hcover : r'.cover query.locationQuery with
    | ok _ covered => exact PathArray.solid_normalise
    | raised covered => exact absurd hcover cover_ne_raised
    | halted => trivial

/-- To extend the path with coordinates. -/
theorem Consistent.extend (hapart : query.TellsWindowsApart) (h : Consistent query r)
    (hspec : UICoord.Normalised spec) : (r.extend query.locationQuery spec).Yields (Consistent query) := by
  have hpath := extendPath_solid query r hspec
  unfold UICoordResolver.extend
  cases hextended : r.extendPath query.locationQuery spec with
  | ok _ r' =>
    rw [hextended] at hpath
    rw [Attempt.bind_ok, Attempt.yields_ok]
    exact (construct_consistent query hpath).canCover hapart
  | raised r' =>
    rw [hextended] at hpath
    rw [Attempt.bind_raised, Attempt.yields_raised, hpath]
    exact h.canCover hapart
  | halted => exact Attempt.yields_halted

theorem raised_extend (hspec : UICoord.Normalised spec) (hraised : r.extend query.locationQuery spec = .raised r') :
    r' = (r.canCover query.locationQuery).2 := by
  have hpath := extendPath_solid query r hspec
  unfold UICoordResolver.extend at hraised
  cases hextended : r.extendPath query.locationQuery spec with
  | ok _ extended =>
    rw [hextended] at hraised
    cases hraised
  | raised left =>
    rw [hextended] at hraised hpath
    cases hraised
    exact hpath
  | halted =>
    rw [hextended] at hraised
    cases hraised

/-- To quantify a component existentially: components which are covered are not concerned. -/
theorem Consistent.existentiallyQuantify (h : Consistent query r) (pos : Nat) :
    Consistent query (r.existentiallyQuantify pos) := by
  unfold UICoordResolver.existentiallyQuantify
  split
  · next hpos =>
      obtain ⟨hsize, hwild⟩ := hpos
      have hcontent : ∀ i, (r.uic.setAt pos (some uicElided)).content i =
          if i = pos then some uicElided else r.uic.content i := PathArray.content_setAt _ _
      -- the anchor of the path remains, and it is none when the window is quantified
      have hanchor : query.determineAnchor (r.uic.setAt pos (some uicElided)) = query.determineAnchor r.uic := by
        by_cases hroot : uicWindow = pos
        · have helided : (r.uic.setAt pos (some uicElided)).content uicWindow = some uicElided := by
            rw [hcontent, if_pos hroot]
          rw [UITopology.determineAnchor_of_elided helided, UITopology.determineAnchor_of_absent (hroot ▸ hwild)]
        · exact UITopology.determineAnchor_congr (by rw [hcontent, if_neg hroot])
      refine ⟨h.solid.setAt (Nat.le_of_lt hsize) _, h.anchored, h.solution, fun hnone _ => ?_, fun hdepth => ?_⟩
      · rw [hanchor]
        exact h.own_anchor hnone (by omega)
      · obtain ⟨name, hname, hsame, hcovers, hown⟩ := h.covered hdepth
        refine ⟨name, hname, hsame, hcovers.window_congr fun i hi hroot => ?_, fun hmem => ?_⟩
        · have hne : i ≠ pos := by
            rintro rfl
            have hpresent := (hcovers i hi).1
            unfold UICoord.isPresent at hpresent hwild
            rw [UITopology.content_window, if_neg hroot, hwild] at hpresent
            cases hpresent
          rw [hcontent, if_neg hne]
        · exact hanchor.trans (hown (hanchor ▸ hmem))
  · exact h

/-! ## Any sequence of mutations -/

/-- A literal extension goes behind something which is covered, not behind a path truncated to nothing. -/
def ExtendsCovered (query : UITopology) (r : UICoordResolver) : Mutation → Prop
  | .extendLiteral _ => (r.ensureCovered query.locationQuery).Yields fun r' => r'.uic.size ≠ 0
  | _ => True

/-- Each mutation retains consistency. -/
theorem Consistent.perform (hapart : query.TellsWindowsApart) (h : Consistent query r) {mutation : Mutation}
    (hextends : ExtendsCovered query r mutation) :
    (r.perform query.locationQuery mutation).Yields (Consistent query) := by
  cases mutation with
  | cover => exact fun r' hr' => (h.cover hapart r' hr').1
  | coverPartially => exact h.coverPartially hapart
  | anchor => exact Attempt.yields_ok.mpr (h.anchor hapart)
  | extendLiteral pathExtension => exact h.extendLiteral hapart pathExtension hextends
  | extend spec hspec => exact h.extend hapart hspec
  | existentiallyQuantify pos => exact Attempt.yields_ok.mpr (h.existentiallyQuantify pos)

theorem invariant_consistent (hapart : query.TellsWindowsApart) {initial : UICoord}
    (hinitial : UICoord.Normalised initial) :
    ((machine query.locationQuery initial).restrict (ExtendsCovered query)).Invariant (Consistent query) where
  init _ hr := hr ▸ construct_consistent query hinitial.solid
  step _ _ r' h hstep := h.perform hapart hstep.1 r' hstep.2

theorem raised_perform {mutation : Mutation} (hraised : r.perform query.locationQuery mutation = .raised r') :
    r' = (r.canCover query.locationQuery).2 ∧ r'.uic = r.uic := by
  have hleft : r' = (r.canCover query.locationQuery).2 := by
    cases mutation with
    | cover => exact absurd hraised cover_ne_raised
    | coverPartially => exact absurd hraised coverPartially_ne_raised
    | anchor => cases hraised
    | extendLiteral pathExtension => exact absurd hraised extendLiteral_ne_raised
    | extend spec hspec => exact raised_extend hspec hraised
    | existentiallyQuantify pos => cases hraised
  exact ⟨hleft, hleft ▸ canCover_uic _ _⟩

/-- **The resolution state remains valid through any sequence of mutations**, as long as nothing is appended to a
path which was truncated to nothing. A path which is covered completely or in part consists of components which
exist one below the other, when rooted at the window where it is anchored; and this is the window of the path, if
that one exists. A mutation which raises leaves the path as it is, while the query `canCover` has been made. -/
theorem reachable_coveredTo (query : UITopology) (hapart : query.TellsWindowsApart) (initial : UICoord)
    (hinitial : UICoord.Normalised initial) {r : UICoordResolver}
    (hr : ((machine query.locationQuery initial).restrict (ExtendsCovered query)).Reachable r) :
    (r.isCoveredPartially = true → r.CoveredTo query r.res.depth) ∧
    (r.isCovered = true → r.CoveredTo query r.uic.size ∧
      (query.determineAnchor r.uic ∈ query.children [] → query.determineCoverage r.uic = r.uic.size)) ∧
    ∀ mutation r', r.perform query.locationQuery mutation = .raised r' →
      r' = (r.canCover query.locationQuery).2 ∧ r'.uic = r.uic := by
  have h := (invariant_consistent hapart hinitial).reachable hr
  refine ⟨fun _ => h.coveredTo, fun hcovered => ?_, fun mutation r' => raised_perform⟩
  have hdepth : r.res.depth = r.uic.size := of_decide_eq_true (Bool.and_eq_true_iff.mp hcovered).2
  have hcovers : r.CoveredTo query r.uic.size := hdepth ▸ h.coveredTo
  refine ⟨hcovers, fun hwindow => ?_⟩
  exact Nat.le_antisymm UITopology.determineCoverage_le_size (UITopology.covers_iff.mp (hcovers.direct hwindow))

/-! ## An elided window -/

/-- A UI which has just one window. -/
def oneWindow : UITopology where
  children pos := if pos = [] then ["win"] else []
  currentWindow := "win"
  currentWindow_mem _ := mem_singleton_self _
  proper pos name hname := by
    split at hname
    · cases mem_singleton.mp hname
      rintro (h | h) <;> exact absurd h (by decide)
    · cases hname
  explicitWindows name hname := by
    cases mem_singleton.mp hname
    decide

/-- Some window, whatever its name. -/
def elidedWindow : UICoord := ⟨some uicElided :: List.replicate 7 .none, by decide⟩

theorem normalised_elidedWindow : UICoord.Normalised elidedWindow := ⟨elidedWindow, rfl⟩

theorem normalised_none : UICoord.Normalised UICoord.none := ⟨UICoord.none, rfl⟩

theorem tellsWindowsApart_oneWindow : oneWindow.TellsWindowsApart := by
  intro name hname other hother _
  rw [mem_singleton.mp hname, mem_singleton.mp hother]

/-- The resolver, when an empty path was extended by an elided window. -/
def elidedResolver : UICoordResolver :=
  ⟨elidedWindow, ⟨some "win", 1, some ⟨some "win" :: List.replicate 7 .none, by decide⟩, true⟩⟩

theorem extend_elidedWindow : ((construct oneWindow.locationQuery UICoord.none).perform oneWindow.locationQuery
    (.extend elidedWindow normalised_elidedWindow)).state = some elidedResolver := rfl

/-- This resolution state is valid when rooted at the window. -/
theorem elidedResolver_coveredTo :
    (elidedResolver.isCoveredPartially = true → elidedResolver.CoveredTo oneWindow elidedResolver.res.depth) ∧
    (elidedResolver.isCovered = true → elidedResolver.CoveredTo oneWindow elidedResolver.uic.size ∧
      (oneWindow.determineAnchor elidedResolver.uic ∈ oneWindow.children [] →
        oneWindow.determineCoverage elidedResolver.uic = elidedResolver.uic.size)) ∧
    ∀ mutation r', elidedResolver.perform oneWindow.locationQuery mutation = .raised r' →
      r' = (elidedResolver.canCover oneWindow.locationQuery).2 ∧ r'.uic = elidedResolver.uic := by
  have hextends : ExtendsCovered oneWindow (construct oneWindow.locationQuery UICoord.none)
      (.extend elidedWindow normalised_elidedWindow) := trivial
  exact reachable_coveredTo oneWindow tellsWindowsApart_oneWindow UICoord.none normalised_none
    (Machine.Reachable.step (.of_init rfl) ⟨hextends, extend_elidedWindow⟩)

/-- A path which is covered by the window, but not further. -/
def windowAndMore : UICoord := ⟨some "win" :: some "more" :: List.replicate 6 .none, by decide⟩

theorem normalised_windowAndMore : UICoord.Normalised windowAndMore := ⟨windowAndMore, rfl⟩

/-- An elided window is reported to be covered, while the path itself is not. And to attempt an extension which would
overwrite what is covered leaves a solution behind, which was not known before. -/
theorem not_covered_elidedWindow :
    (∃ r, (machine oneWindow.locationQuery UICoord.none).Reachable r ∧
      r.isCovered = true ∧ oneWindow.determineCoverage r.uic ≠ r.uic.size) ∧
    ∃ r mutation r', (machine oneWindow.locationQuery windowAndMore).Reachable r ∧
      r.perform oneWindow.locationQuery mutation = .raised r' ∧
      r.res.covfefe.isNone = true ∧ r'.res.covfefe.isSome = true := by
  refine ⟨⟨elidedResolver, Machine.Reachable.step (.of_init rfl) extend_elidedWindow, by decide, by decide⟩, ?_⟩
  exact ⟨construct oneWindow.locationQuery windowAndMore, .extend windowAndMore normalised_windowAndMore,
    _, .of_init rfl, rfl, by decide, by decide⟩

end UICoordResolver

end Lumiera.Stage.Interact
