import Mathlib.Data.List.Basic

/-! # Depth-first traversal with pruning

Any element has children, and thus a sequence of elements to start with yields a forest. The
traversal visits an element before its children, and these before its next sibling; yet whatever lies
below an element not entered is skipped. `traverse_induct` is the rule to reason about the state which
is built by the way, based on the paths down to the elements entered, in the order visited. -/

namespace Lumiera.DepthFirst

open List

universe u v

variable {α : Type u} {σ : Type v} (children : α → List α)

/-! ## Paths -/

/-- The path leads down from one of the elements given, from child to child. -/
def Descends : List α → List α → Prop
  | _, [] => True
  | elms, elm :: path => elm ∈ elms ∧ Descends (children elm) path

/-- All paths down from the elements given, in depth-first order, up to the given length. -/
def paths : Nat → List α → List (List α)
  | 0, _ => []
  | n + 1, elms => elms.flatMap fun elm => [elm] :: (paths n (children elm)).map (elm :: ·)

theorem mem_paths {n : Nat} {elms path : List α} :
    path ∈ paths children n elms ↔ path ≠ [] ∧ path.length ≤ n ∧ Descends children elms path := by
  induction n generalizing elms path with
  | zero =>
    refine ⟨fun hmem => (not_mem_nil hmem).elim, fun ⟨hne, hlength, _⟩ => ?_⟩
    exact absurd (length_eq_zero_iff.mp (Nat.le_zero.mp hlength)) hne
  | succ n ih =>
    rw [paths, mem_flatMap]
    constructor
    · rintro ⟨elm, helm, hmem⟩
      rcases mem_cons.mp hmem with rfl | hmem
      · exact ⟨cons_ne_nil _ _, Nat.succ_le_succ (Nat.zero_le n), helm, trivial⟩
      · obtain ⟨rest, hrest, rfl⟩ := mem_map.mp hmem
        obtain ⟨-, hlength, hdescends⟩ := ih.mp hrest
        exact ⟨cons_ne_nil _ _, Nat.succ_le_succ hlength, helm, hdescends⟩
    · rintro ⟨hne, hlength, hdescends⟩
      obtain ⟨elm, rest, rfl⟩ := exists_cons_of_ne_nil hne
      obtain ⟨helm, hrest⟩ := hdescends
      refine ⟨elm, helm, ?_⟩
      by_cases hnil : rest = []
      · rw [hnil]
        exact mem_cons_self
      · have hmem : rest ∈ paths children n (children elm) :=
          ih.mpr ⟨hnil, Nat.le_of_succ_le_succ hlength, hrest⟩
        exact mem_cons_of_mem _ (mem_map_of_mem hmem)

/-! ## The longest path -/

/-- **The first path of maximal length** among those accepted. -/
structure FirstLongest (accepted : List α → Prop) (visited : List (List α)) (path : List α) : Prop where
  accepts : accepted path
  longest : ∀ other ∈ visited, accepted other → other.length ≤ path.length
  first : ∃ before after, visited = before ++ path :: after ∧
    ∀ other ∈ before, accepted other → other.length < path.length

namespace FirstLongest

variable {accepted accepted' : List α → Prop} {visited : List (List α)} {path next : List α}

theorem concat (haccepted : accepted next) (h : ∀ other ∈ visited, accepted other → other.length < next.length) :
    FirstLongest accepted (visited ++ [next]) next := by
  refine ⟨haccepted, fun other hother hacc => ?_, visited, [], rfl, h⟩
  rcases mem_append.mp hother with hother | hother
  · exact Nat.le_of_lt (h other hother hacc)
  · obtain rfl := mem_singleton.mp hother
    exact Nat.le_refl _

theorem stay (h : FirstLongest accepted visited path) (hnext : accepted next → next.length ≤ path.length) :
    FirstLongest accepted (visited ++ [next]) path := by
  obtain ⟨before, after, rfl, hbefore⟩ := h.first
  refine ⟨h.accepts, fun other hother hacc => ?_, before, after ++ [next], ?_, hbefore⟩
  · rcases mem_append.mp hother with hother | hother
    · exact h.longest other hother hacc
    · obtain rfl := mem_singleton.mp hother
      exact hnext hacc
  · rw [append_assoc, cons_append]

theorem of_filter {keep : List α → Bool} (h : FirstLongest accepted (visited.filter keep) path)
    (hiff : ∀ other ∈ visited, accepted' other ↔ keep other = true ∧ accepted other) :
    FirstLongest accepted' visited path := by
  obtain ⟨before, after, hsplit, hbefore⟩ := h.first
  obtain ⟨before', rest, rfl, rfl, hrest⟩ := filter_eq_append_iff.mp hsplit
  obtain ⟨skipped, after', rfl, hskipped, hkeep, rfl⟩ := filter_eq_cons_iff.mp hrest
  have hlt : ∀ other ∈ before' ++ skipped, accepted' other → other.length < path.length := by
    intro other hother hacc
    obtain ⟨hkept, haccepted⟩ := (hiff other (by grind)).mp hacc
    rcases mem_append.mp hother with hin | hin
    · exact hbefore other (mem_filter.mpr ⟨hin, hkept⟩) haccepted
    · exact absurd hkept (hskipped other hin)
  refine ⟨(hiff path (by grind)).mpr ⟨hkeep, h.accepts⟩, fun other hother hacc => ?_,
    before' ++ skipped, after', by rw [append_assoc], hlt⟩
  obtain ⟨hkept, haccepted⟩ := (hiff other hother).mp hacc
  exact h.longest other (mem_filter.mpr ⟨hother, hkept⟩) haccepted

end FirstLongest

/-! ## Traversal -/

variable (enter : Nat → α → Bool) (arrive : Nat → α → σ → σ)

/-- **Traverse the elements** at a given depth, and those below, for a number of levels: an element is
entered or skipped, depending on its depth. -/
def traverse : Nat → Nat → List α → σ → σ
  | 0, _, _, state => state
  | n + 1, depth, elms, state =>
    elms.foldl
      (fun state elm =>
        if enter depth elm then traverse n (depth + 1) (children elm) (arrive depth elm state) else state)
      state

/-- All elements of a path are entered, when it starts at the given depth. -/
def entered : Nat → List α → Bool
  | _, [] => true
  | depth, elm :: path => enter depth elm && entered (depth + 1) path

theorem entered_iff {depth : Nat} {path : List α} :
    entered enter depth path = true ↔ ∀ i elm, path[i]? = some elm → enter (depth + i) elm = true := by
  induction path generalizing depth with
  | nil => simp [entered]
  | cons first path ih =>
    rw [entered, Bool.and_eq_true, ih]
    constructor
    · rintro ⟨hfirst, hpath⟩ i elm hi
      cases i with
      | zero =>
        obtain rfl : first = elm := Option.some.inj hi
        exact hfirst
      | succ i =>
        have hnext := hpath i elm hi
        rwa [show depth + 1 + i = depth + (i + 1) by omega] at hnext
    · intro h
      refine ⟨h 0 first rfl, fun i elm hi => ?_⟩
      rw [show depth + 1 + i = depth + (i + 1) by omega]
      exact h (i + 1) elm hi

/-- The paths to the elements which are visited, in order. -/
def visits (n depth : Nat) (elms : List α) : List (List α) :=
  (paths children n elms).filter (entered enter depth)

theorem filter_entered (n depth : Nat) (elm : α) :
    ([elm] :: (paths children n (children elm)).map (elm :: ·)).filter (entered enter depth) =
      if enter depth elm then [elm] :: (visits children enter n (depth + 1) (children elm)).map (elm :: ·)
      else [] := by
  split_ifs with henter
  · have hbelow : entered enter depth ∘ (elm :: ·) = entered enter (depth + 1) := by
      funext path
      simp [entered, henter]
    rw [filter_cons_of_pos (by simp [entered, henter]), filter_map, hbelow]
    rfl
  · refine filter_eq_nil_iff.mpr fun path hpath => ?_
    rcases mem_cons.mp hpath with rfl | hpath
    · simp [entered, henter]
    · obtain ⟨rest, -, rfl⟩ := mem_map.mp hpath
      simp [entered, henter]

variable {children enter arrive}

/-- **The induction rule**: what holds for the path to the current element, with all paths visited thus
far, and the state, must be established when arriving at an element, and must remain when leaving it. -/
theorem traverse_induct {I : List α → List (List α) → σ → Prop}
    (harrive : ∀ above elm visited state, enter above.length elm = true → I above visited state →
      I (above ++ [elm]) (visited ++ [above ++ [elm]]) (arrive above.length elm state))
    (hleave : ∀ above elm visited state, I (above ++ [elm]) visited state → I above visited state)
    (n : Nat) {elms above : List α} {visited : List (List α)} {state : σ} (h : I above visited state) :
    I above (visited ++ (visits children enter n above.length elms).map (above ++ ·))
      (traverse children enter arrive n above.length elms state) := by
  induction n generalizing elms above visited state with
  | zero =>
    rw [visits, paths, filter_nil, map_nil, append_nil]
    exact h
  | succ n ih =>
    rw [visits, paths, traverse]
    -- the siblings are traversed one after the other
    induction elms generalizing visited state with
    | nil =>
      rw [flatMap_nil, filter_nil, map_nil, append_nil]
      exact h
    | cons elm elms ihElms =>
      rw [flatMap_cons, filter_append, map_append, ← append_assoc, foldl_cons,
        filter_entered]
      apply ihElms
      split_ifs with henter
      · have harrived := harrive above elm visited state henter h
        have hbelow := @ih (children elm) _ _ _ harrived
        rw [length_append] at hbelow
        have hpaths : (above ++ ·) ∘ (elm :: ·) = ((above ++ [elm]) ++ · : List α → List α) := by
          funext path
          exact append_cons above elm path
        rw [map_cons, map_map, hpaths, append_cons]
        exact hleave above elm _ _ hbelow
      · rw [map_nil, append_nil]
        exact h

end Lumiera.DepthFirst
