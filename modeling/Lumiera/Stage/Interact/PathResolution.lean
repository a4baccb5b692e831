import Lumiera.Base.DepthFirst
import Mathlib.Data.List.MinMax
import Lumiera.Stage.Interact.LocationQuery

/-! # Path resolution

Matching a path with gaps and wildcards against the structure of the UI (`pathResolution`): a
depth-first search with backtracking visits the components which match the path so far, writes their
names into a buffer, and retains a copy of this buffer for the first solution of maximal depth.
The search finds a solution whenever there is one, and it is the first one of those of maximal length
(`pathResolution_resolves`). -/

namespace Lumiera.Stage.Interact

open List

open Lib (Literal PathArray Symbol.any Symbol.empty Symbol.bottom isnil)

universe u

variable {Component : Type u}

/-! ## The buffer -/

/-- The buffer where the coverage is built: a path and the depth reached currently. -/
structure PathManipulator where
  path : UICoord
  currDepth : Nat

/-- The path without any component. -/
def UICoord.none : UICoord := ⟨List.replicate 8 .none, by rw [length_replicate]⟩

namespace PathManipulator

/-- The empty buffer. -/
def empty : PathManipulator := ⟨UICoord.none, 0⟩

/-- Record a name at the given depth. -/
def setAt (buffer : PathManipulator) (depth : Nat) (newSpec : String) : PathManipulator :=
  ⟨buffer.path.setAt depth (some newSpec), depth + 1⟩

/-- Truncate the buffer to the current depth; this is the result. -/
def retrieveResult (buffer : PathManipulator) : PathManipulator :=
  { buffer with path := buffer.path.truncateTo buffer.currDepth }

end PathManipulator

/-! ## The search -/

/-- The path is anchored at an existing window. -/
def isAnchored (anchor : Literal) : Bool := anchor.isSome && !sameLiteral anchor (some Symbol.bottom)

/-- The pattern element matches whatever is found there, or it is at the window level, where the
anchor was already determined. -/
def wildMatch (anchor patt curr : Literal) (depth : Nat) : Bool :=
  sameLiteral patt (some Symbol.any) || sameLiteral patt (some Symbol.empty) ||
    sameLiteral patt (some uicElided) ||
      isAnchored anchor && sameLiteral curr anchor && depth = uicWindow

/-- The pattern element matches a component found at this depth. As patterns are normalised, there is an
element at each depth within their size. -/
def isMatch (uic : UICoord) (anchor : Literal) (depth : Nat) (curr : String) : Bool :=
  sameLiteral (uic.content depth) (some curr) || wildMatch anchor (uic.content depth) (some curr) depth

/-- The component is named by the pattern, or accepted as existing somehow. -/
def isConfirmed (uic : UICoord) (depth : Nat) (curr : String) : Bool :=
  sameLiteral (uic.content depth) (some curr) || sameLiteral (uic.content depth) (some uicElided)

/-- A gap or a wildcard. -/
def isWild (elm : Literal) : Bool := sameLiteral elm (some Symbol.any) || sameLiteral elm (some Symbol.empty)

/-- One behind the last gap or wildcard of the path. -/
def findWildcardFreeSuffix (uic : UICoord) : Nat := Lib.behindLast (fun pos => isWild (uic.content pos)) uic.size

/-- The state of the search: the buffer, the depth of the best solution so far, and this solution. -/
structure Search where
  coverage : PathManipulator
  maxDepth : Nat
  covfefe : Option UICoord

namespace Search

/-- The search starts with an empty buffer. -/
def start : Search := ⟨.empty, 0, none⟩

/-- A component matches the pattern: it is recorded in the buffer. -/
def record (search : Search) (depth : Nat) (curr : String) : Search :=
  { search with coverage := search.coverage.setAt depth curr }

/-- A solution is retained when it binds all wildcards and is deeper than those before. -/
def accept (search : Search) (minSolutionDepth depth : Nat) : Search :=
  if depth < minSolutionDepth then search
  else if depth + 1 ≤ search.maxDepth then search
  else
    { coverage := search.coverage.retrieveResult
      maxDepth := depth + 1
      covfefe := some search.coverage.retrieveResult.path }

/-- Arrive at a component which matches the pattern: it is recorded, and when confirmed it constitutes a
solution. -/
def arrive (uic : UICoord) (depth : Nat) (curr : String) (search : Search) : Search :=
  if isConfirmed uic depth curr then (search.record depth curr).accept (findWildcardFreeSuffix uic) depth
  else search.record depth curr

end Search

/-- **Explore the structure of the UI**, depth first. The search goes as many levels down as there are
elements in the pattern, and continues with the children of those components which match. -/
def searchSolution (query : LocationQuery Component) (uic : UICoord) (anchor : Literal) : Option UICoord :=
  (DepthFirst.traverse query.children (fun depth comp => isMatch uic anchor depth (query.name comp))
    (fun depth comp => Search.arrive uic depth (query.name comp)) uic.size 0 query.windows .start).covfefe

/-! ## The resolver -/

/-- What is known about the resolution of a path. -/
structure Resolution where
  anchor : Literal
  depth : Nat
  covfefe : Option UICoord
  isResolved : Bool

/-- A path and its resolution. -/
structure UICoordResolver where
  uic : UICoord
  res : Resolution

namespace UICoordResolver

/-- `attempt_trivialResolution`: an explicit path is resolved without a search. -/
def attemptTrivialResolution (query : LocationQuery Component) (resolver : UICoordResolver) : UICoordResolver :=
  let anchored := { resolver.res with anchor := some (query.determineAnchor resolver.uic) }
  if resolver.uic.isExplicit then
    let covered := { anchored with depth := query.determineCoverage resolver.uic }
    if resolver.uic.elements.any fun elm => sameLiteral elm (some uicElided) then ⟨resolver.uic, covered⟩
    else ⟨resolver.uic, { covered with isResolved := true }⟩
  else ⟨resolver.uic, anchored⟩

/-- The constructor: nothing is known but the trivial resolution. -/
def construct (query : LocationQuery Component) (uic : UICoord) : UICoordResolver :=
  attemptTrivialResolution query ⟨uic, ⟨none, 0, none, false⟩⟩

/-- `UICoordResolver::pathResolution`: the result tells whether total coverage is possible. -/
def pathResolution (query : LocationQuery Component) (resolver : UICoordResolver) : Bool × UICoordResolver :=
  let uic := resolver.uic
  let res := { resolver.res with isResolved := true }
  match searchSolution query uic res.anchor with
  | none => (false, ⟨uic, res⟩)
  | some covfefe =>
    let anchor := some covfefe.getWindow
    let depth := if res.depth = 0 then query.determineCoverage uic else res.depth
    let depth := if depth = 0 ∧ anchor.isSome then 1 else depth
    (covfefe.size = uic.size, ⟨uic, ⟨anchor, depth, some covfefe, true⟩⟩)

end UICoordResolver

/-! ## What is expected -/

/-- **A component matches an element of the pattern**: it is named there, or there is a gap or a wildcard
or an elided element, or it is the window where the pattern is anchored. -/
def MatchesElm (query : LocationQuery Component) (uic : UICoord) (anchor : Literal) (depth : Nat)
    (comp : Component) : Prop :=
  sameLiteral (uic.content depth) (some (query.name comp)) = true ∨ isWild (uic.content depth) = true ∨
    sameLiteral (uic.content depth) (some uicElided) = true ∨
      depth = uicWindow ∧ isAnchored anchor = true ∧ sameLiteral (some (query.name comp)) anchor = true

/-- **A solution**: a path in the tree which matches a prefix of the pattern, extends behind the last
wildcard, and ends where the pattern names the component or has an elided element. -/
structure IsSolution (query : LocationQuery Component) (uic : UICoord) (anchor : Literal)
    (path : List Component) : Prop where
  descends : DepthFirst.Descends query.children query.windows path
  length_le : path.length ≤ uic.size
  matched : ∀ i comp, path[i]? = some comp → MatchesElm query uic anchor i comp
  behind_wild : ∀ i < uic.size, isWild (uic.content i) = true → i + 1 < path.length
  confirmed : ∃ comp, path.getLast? = some comp ∧ isConfirmed uic (path.length - 1) (query.name comp) = true

/-- **The path is resolved as expected**: a solution is found exactly if there is one, and it names the
components of the first solution of maximal length; the result tells if the whole pattern is matched. -/
structure Resolves (query : LocationQuery Component) (uic : UICoord) (anchor : Literal)
    (outcome : Bool × UICoordResolver) : Prop where
  found_iff : outcome.2.res.covfefe.isSome = true ↔ ∃ path, IsSolution query uic anchor path
  first_longest : ∀ covfefe, outcome.2.res.covfefe = some covfefe → ∃ path,
    DepthFirst.FirstLongest (IsSolution query uic anchor)
      (DepthFirst.paths query.children uic.size query.windows) path ∧ covfefe.IsNames (path.map query.name)
  success_iff : outcome.1 = true ↔ ∃ covfefe, outcome.2.res.covfefe = some covfefe ∧ covfefe.size = uic.size

/-! ## The search finds the solution -/

variable {query : LocationQuery Component} {uic : UICoord} {anchor : Literal}

theorem isMatch_iff {depth : Nat} {comp : Component} :
    isMatch uic anchor depth (query.name comp) = true ↔ MatchesElm query uic anchor depth comp := by
  unfold isMatch wildMatch MatchesElm isWild
  simp only [Bool.or_eq_true, Bool.and_eq_true, decide_eq_true_eq]
  tauto

/-- The buffer holds a sequence of names which starts with those of the position. -/
def PathManipulator.Holds (buffer : PathManipulator) (pos : List String) : Prop :=
  ∃ names, pos <+: names ∧ buffer.path.IsNames names

theorem PathManipulator.holds_empty : PathManipulator.empty.Holds [] := by
  refine ⟨[], prefix_refl [], fun k => ?_, rfl⟩
  unfold PathArray.content PathManipulator.empty UICoord.none
  rw [getElem?_replicate]
  split_ifs <;> rfl

variable {buffer : PathManipulator} {pos : List String}

theorem PathManipulator.Holds.mono {name : String} (h : buffer.Holds (pos ++ [name])) : buffer.Holds pos := by
  obtain ⟨names, hprefix, hnames⟩ := h
  exact ⟨names, (prefix_append pos [name]).trans hprefix, hnames⟩

theorem PathManipulator.Holds.setAt (h : buffer.Holds pos) (name : String) :
    (buffer.setAt pos.length name).Holds (pos ++ [name]) := by
  obtain ⟨names, ⟨rest, rfl⟩, hnames⟩ := h
  have hle : pos.length ≤ (pos ++ rest).length := by
    rw [length_append]
    omega
  refine ⟨_, ?_, hnames.setAt hle name⟩
  rw [take_left]
  exact ⟨_, (append_cons ..).symm⟩

theorem PathManipulator.Holds.retrieveResult (h : buffer.Holds pos) (hdepth : buffer.currDepth = pos.length) :
    buffer.retrieveResult.path.IsNames pos := by
  obtain ⟨names, ⟨rest, rfl⟩, hnames⟩ := h
  have hle : buffer.currDepth ≤ (pos ++ rest).length := by
    rw [length_append]
    omega
  have htruncated : buffer.retrieveResult.path.IsNames ((pos ++ rest).take buffer.currDepth) :=
    hnames.truncateTo hle
  rwa [hdepth, take_left] at htruncated

/-- The path reaches behind the wildcards, and its last component is confirmed by the pattern. -/
def Accepted (query : LocationQuery Component) (uic : UICoord) (path : List Component) : Prop :=
  findWildcardFreeSuffix uic < path.length ∧
    ∃ comp, path.getLast? = some comp ∧ isConfirmed uic (path.length - 1) (query.name comp) = true

/-- What is known of the solution, given the paths visited so far. -/
inductive Search.Best (query : LocationQuery Component) (uic : UICoord) (visited : List (List Component)) :
    Search → Prop
  | none (coverage : PathManipulator) : (∀ path ∈ visited, ¬ Accepted query uic path) →
      Best query uic visited ⟨coverage, 0, none⟩
  | some (coverage : PathManipulator) (path : List Component) (covfefe : UICoord) :
      DepthFirst.FirstLongest (Accepted query uic) visited path → covfefe.IsNames (path.map query.name) →
      Best query uic visited ⟨coverage, path.length, some covfefe⟩

/-- **The invariant of the search**: the buffer holds the names down to the current component, and the
best solution was retained. -/
structure Search.Invariant (query : LocationQuery Component) (uic : UICoord) (above : List Component)
    (visited : List (List Component)) (search : Search) : Prop where
  holds : search.coverage.Holds (above.map query.name)
  best : search.Best query uic visited

variable {visited : List (List Component)} {search : Search}

theorem Search.Best.record (h : search.Best query uic visited) (depth : Nat) (curr : String) :
    (search.record depth curr).Best query uic visited := by
  cases h with
  | none coverage hnone => exact .none _ hnone
  | some coverage path covfefe hfirst hnames => exact .some _ path covfefe hfirst hnames

theorem Search.Best.stay {next : List Component} (h : search.Best query uic visited)
    (hnext : Accepted query uic next → next.length ≤ search.maxDepth) :
    search.Best query uic (visited ++ [next]) := by
  cases h with
  | none coverage hnone =>
    refine .none _ fun path hpath haccepted => ?_
    rcases mem_append.mp hpath with hpath | hpath
    · exact hnone path hpath haccepted
    · obtain rfl := mem_singleton.mp hpath
      have hlength : path.length ≤ 0 := hnext haccepted
      have hpos : findWildcardFreeSuffix uic < path.length := haccepted.1
      omega
  | some coverage path covfefe hfirst hnames => exact .some _ path covfefe (hfirst.stay hnext) hnames

theorem Search.Best.replace {next : List Component} {covfefe : UICoord} (h : search.Best query uic visited)
    (haccepted : Accepted query uic next) (hlonger : search.maxDepth < next.length)
    (hnames : covfefe.IsNames (next.map query.name)) (coverage : PathManipulator) :
    Search.Best query uic (visited ++ [next]) ⟨coverage, next.length, Option.some covfefe⟩ := by
  refine .some coverage next covfefe (.concat haccepted fun other hother hacc => ?_) hnames
  cases h with
  | none coverage hnone => exact absurd hacc (hnone other hother)
  | some coverage path covfefe hfirst _ => exact Nat.lt_of_le_of_lt (hfirst.longest other hother hacc) hlonger

/-- Arriving at a component maintains the invariant. -/
theorem Search.Invariant.arrive {above : List Component} (h : search.Invariant query uic above visited)
    (comp : Component) : (search.arrive uic above.length (query.name comp)).Invariant query uic (above ++ [comp])
    (visited ++ [above ++ [comp]]) := by
  have hlength : (above ++ [comp]).length = above.length + 1 := length_append
  have hholds : (search.record above.length (query.name comp)).coverage.Holds
      ((above ++ [comp]).map query.name) := by
    rw [map_append]
    have hset := h.holds.setAt (query.name comp)
    rwa [length_map] at hset
  have hbest := h.best.record above.length (query.name comp)
  have haccepted_iff : Accepted query uic (above ++ [comp]) ↔
      findWildcardFreeSuffix uic ≤ above.length ∧ isConfirmed uic above.length (query.name comp) = true := by
    unfold Accepted
    rw [hlength, getLast?_concat, Nat.lt_succ_iff, Nat.add_sub_cancel]
    simp only [Option.some.injEq, exists_eq_left']
  unfold Search.arrive Search.accept
  split_ifs with hconfirmed hwild hshorter
  · refine ⟨hholds, hbest.stay fun haccepted => ?_⟩
    have hle := (haccepted_iff.mp haccepted).1
    omega
  · exact ⟨hholds, hbest.stay fun _ => by rwa [hlength]⟩
  · -- a longer solution
    have hnames := hholds.retrieveResult (by rw [length_map, hlength]; rfl)
    refine ⟨⟨_, prefix_refl _, hnames⟩, ?_⟩
    rw [← hlength]
    refine hbest.replace (haccepted_iff.mpr ⟨by omega, hconfirmed⟩) ?_ hnames _
    omega
  · refine ⟨hholds, hbest.stay fun haccepted => ?_⟩
    exact absurd (haccepted_iff.mp haccepted).2 hconfirmed

/-- All solutions are paths which are visited by the search. -/
theorem isSolution_iff {path : List Component}
    (hmem : path ∈ DepthFirst.paths query.children uic.size query.windows) :
    IsSolution query uic anchor path ↔
      DepthFirst.entered (fun depth comp => isMatch uic anchor depth (query.name comp)) 0 path = true ∧
        Accepted query uic path := by
  obtain ⟨hne, hlength, hdescends⟩ := (DepthFirst.mem_paths query.children).mp hmem
  have hpos : 0 < path.length := length_pos_iff.mpr hne
  have hmatched : DepthFirst.entered (fun depth comp => isMatch uic anchor depth (query.name comp)) 0 path = true ↔
      ∀ i comp, path[i]? = some comp → MatchesElm query uic anchor i comp := by
    rw [DepthFirst.entered_iff]
    simp only [Nat.zero_add, isMatch_iff]
  have hbehind : findWildcardFreeSuffix uic < path.length ↔
      ∀ i < uic.size, isWild (uic.content i) = true → i + 1 < path.length := by
    constructor
    · intro h i hi hwild
      have hlt : i < findWildcardFreeSuffix uic := Lib.lt_behindLast_iff.mpr ⟨i, Nat.le_refl i, hi, hwild⟩
      omega
    · intro h
      by_contra hge
      obtain ⟨k, hk, hsize, hwild⟩ := Lib.lt_behindLast_iff.mp
        (show path.length - 1 < findWildcardFreeSuffix uic by omega)
      have hlt := h k hsize hwild
      omega
  rw [hmatched, Accepted, hbehind]
  constructor
  · intro h
    exact ⟨h.matched, h.behind_wild, h.confirmed⟩
  · rintro ⟨hall, hwild, hconfirmed⟩
    exact ⟨hdescends, hlength, hall, hwild, hconfirmed⟩

theorem IsSolution.mem_paths {path : List Component} (h : IsSolution query uic anchor path) :
    path ∈ DepthFirst.paths query.children uic.size query.windows := by
  refine (DepthFirst.mem_paths query.children).mpr ⟨?_, h.length_le, h.descends⟩
  rintro rfl
  obtain ⟨comp, hlast, -⟩ := h.confirmed
  cases hlast

/-- The search finds the first solution of maximal length, if there is any. -/
theorem searchSolution_spec (query : LocationQuery Component) (uic : UICoord) (anchor : Literal) :
    (searchSolution query uic anchor = none ∧ ∀ path, ¬ IsSolution query uic anchor path) ∨ ∃ covfefe path,
    searchSolution query uic anchor = some covfefe ∧ DepthFirst.FirstLongest (IsSolution query uic anchor)
    (DepthFirst.paths query.children uic.size query.windows) path ∧ covfefe.IsNames (path.map query.name) := by
  have hstart : Search.start.Invariant query uic [] [] :=
    ⟨PathManipulator.holds_empty, .none _ fun _ hpath => (not_mem_nil hpath).elim⟩
  have hend : Search.Invariant query uic []
      ([] ++ (DepthFirst.visits query.children (fun depth comp => isMatch uic anchor depth (query.name comp))
        uic.size 0 query.windows).map ([] ++ ·))
      (DepthFirst.traverse query.children (fun depth comp => isMatch uic anchor depth (query.name comp))
        (fun depth comp => Search.arrive uic depth (query.name comp)) uic.size 0 query.windows .start) := by
    refine DepthFirst.traverse_induct (fun above comp _ _ _ h => h.arrive comp) (fun above comp _ _ h => ?_)
      uic.size hstart
    have hholds := h.holds
    rw [map_append] at hholds
    exact ⟨hholds.mono, h.best⟩
  unfold searchSolution
  generalize DepthFirst.traverse _ _ _ _ _ _ _ = search at hend ⊢
  have hbest := hend.best
  rw [nil_append, map_congr_left (fun path _ => nil_append path), map_id',
    DepthFirst.visits] at hbest
  cases hbest with
  | none coverage hnone =>
    refine .inl ⟨rfl, fun path hsolution => ?_⟩
    obtain ⟨hentered, haccepted⟩ := (isSolution_iff hsolution.mem_paths).mp hsolution
    exact hnone path (mem_filter.mpr ⟨hsolution.mem_paths, hentered⟩) haccepted
  | some coverage path covfefe hfirst hnames =>
    exact .inr ⟨covfefe, path, rfl, hfirst.of_filter fun other hother => isSolution_iff hother, hnames⟩

/-! ## Paths to existing components -/

/-- **A path to an existing component**: its elements are just the names which lead there, and there
is at least a window. -/
def ExistingPath (topology : UITopology) (path : UICoord) : Prop :=
  ∃ pos, pos ≠ [] ∧ topology.Exists pos ∧ path.IsNames pos

namespace UITopology

variable {topology : UITopology}

theorem Exists.descend {pos : List String} (hpos : topology.Exists pos) {path : List (List String)}
    (h : DepthFirst.Descends topology.locationQuery.children (topology.locationQuery.children pos) path) :
    topology.Exists (pos ++ path.map topology.locationQuery.name) := by
  induction path generalizing pos with
  | nil =>
    rw [map_nil, append_nil]
    exact hpos
  | cons comp path ih =>
    obtain ⟨hmem, hbelow⟩ := h
    obtain ⟨name, hname, rfl⟩ := mem_map.mp hmem
    have hlast : topology.locationQuery.name (pos ++ [name]) = name := getLastD_concat ..
    rw [map_cons, hlast, append_cons]
    exact ih (hpos.child hname) hbelow

/-- A solution is a path to an existing component. -/
theorem existingPath_of_search {path : UICoord}
    (h : searchSolution topology.locationQuery uic anchor = some path) : ExistingPath topology path := by
  rcases searchSolution_spec topology.locationQuery uic anchor with ⟨hnone, -⟩ | ⟨covfefe, comps, hsome, hfirst, hnames⟩
  · rw [hnone] at h
    cases h
  · obtain rfl := Option.some.inj (hsome.symm.trans h)
    refine ⟨comps.map topology.locationQuery.name, ?_, Exists.root.descend hfirst.accepts.descends, hnames⟩
    obtain ⟨comp, hlast, -⟩ := hfirst.accepts.confirmed
    intro hnil
    rw [map_eq_nil_iff.mp hnil] at hlast
    cases hlast

end UITopology

namespace ExistingPath

variable {topology : UITopology} {path : UICoord}

theorem covers (h : ExistingPath topology path) : topology.Covers path path.size := by
  obtain ⟨pos, -, hexists, hnames⟩ := h
  rw [hnames.size]
  exact (hexists.covers fun i _ => hnames.content_eq i).1

theorem solid (h : ExistingPath topology path) : path.Solid := by
  obtain ⟨pos, -, -, hnames⟩ := h
  exact hnames.solid

theorem size_pos (h : ExistingPath topology path) : 0 < path.size := by
  obtain ⟨pos, hne, -, hnames⟩ := h
  rw [hnames.size]
  exact length_pos_iff.mpr hne

theorem getWindow_mem (h : ExistingPath topology path) :
    path.getWindow ∈ topology.children [] ∧ path.content uicWindow = some path.getWindow := by
  obtain ⟨pos, hne, hexists, hnames⟩ := h
  obtain ⟨name, rest, rfl⟩ := exists_cons_of_ne_nil hne
  have hcontent : path.content uicWindow = some name := hnames.content_eq uicWindow
  have hwindow : path.getWindow = name := by
    rw [UICoord.getWindow, hcontent]
    rfl
  rw [hwindow]
  exact ⟨hexists.head_mem rfl, hcontent⟩

end ExistingPath

/-! ## The resolution -/

namespace UICoordResolver

theorem resolves_of_covfefe_eq_none (query : LocationQuery Component) {resolver : UICoordResolver}
    (hnone : resolver.res.covfefe = none) :
    Resolves query resolver.uic resolver.res.anchor (resolver.pathResolution query) := by
  rcases searchSolution_spec query resolver.uic resolver.res.anchor with
    ⟨hsearch, hsolution⟩ | ⟨covfefe, path, hsearch, hfirst, hnames⟩
  · simp only [pathResolution, hsearch]
    refine ⟨?_, fun covfefe hsome => ?_, ?_⟩
    · rw [hnone]
      exact iff_of_false Bool.false_ne_true fun ⟨path, h⟩ => hsolution path h
    · rw [hnone] at hsome
      cases hsome
    · rw [hnone]
      exact iff_of_false Bool.false_ne_true fun ⟨_, h, _⟩ => by cases h
  · simp only [pathResolution, hsearch]
    refine ⟨iff_of_true rfl ⟨path, hfirst.accepts⟩, fun found hsome => ?_, ?_⟩
    · obtain rfl := Option.some.inj hsome
      exact ⟨path, hfirst, hnames⟩
    · simp only [decide_eq_true_eq, Option.some.injEq, exists_eq_left']

theorem construct_uic (query : LocationQuery Component) (uic : UICoord) : (construct query uic).uic = uic := by
  unfold construct attemptTrivialResolution
  split_ifs <;> rfl

theorem construct_res (query : LocationQuery Component) (uic : UICoord) :
    (construct query uic).res.anchor = some (query.determineAnchor uic) ∧
      (construct query uic).res.covfefe = none := by
  unfold construct attemptTrivialResolution
  split_ifs <;> exact ⟨rfl, rfl⟩

/-- **Path resolution works as expected**, for any structure of the UI and any pattern. -/
theorem pathResolution_resolves (query : LocationQuery Component) (uic : UICoord) :
    Resolves query uic (some (query.determineAnchor uic)) ((construct query uic).pathResolution query) := by
  obtain ⟨hanchor, hnone⟩ := construct_res query uic
  have hresolves := resolves_of_covfefe_eq_none query hnone
  rwa [construct_uic, hanchor] at hresolves

end UICoordResolver

end Lumiera.Stage.Interact
