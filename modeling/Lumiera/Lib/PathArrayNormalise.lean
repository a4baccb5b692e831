import Lumiera.Lib.PathArray

/-! # The contract of normalised path arrays

`normalise` promises a contract: there is no null within the path, a gap at the start is represented
by the empty symbol and any other gap by the wildcard, and the path ends with an element which is not
empty. The symbol used to fill gaps is also the one trimmed at the end. When a leading gap is followed
by nothing but wildcards, these are trimmed and the gap stays. -/

namespace Lumiera.Lib

open List

namespace PathArray

variable {chunk_size : Nat} {path : PathArray chunk_size} {i k : Nat}

/-! ## What is expected -/

/-- The element expected at a position: gaps are filled, according to what comes before. -/
def filledElm (path : PathArray chunk_size) (k : Nat) : Literal :=
  if isnil (path.content k) then
    (if ∀ j < k, isnil (path.content j) then some Symbol.empty else some Symbol.any)
  else path.content k

/-- **The contract of a path array**: each element within the size is the one expected, thus not null, and
the size counts up to the last element which is not empty. -/
structure Contract (path result : PathArray chunk_size) : Prop where
  filled : ∀ k < result.size, result.content k = path.filledElm k
  size_iff : ∀ i, i < result.size ↔ ∃ k, i ≤ k ∧ ¬ isnil (result.content k) = true

/-- **Normalising works as expected**: it establishes the contract, and doing so again has no effect. -/
structure Normalises (path : PathArray chunk_size) : Prop where
  contract : Contract path path.normalise
  idempotent : path.normalise.normalise = path.normalise

/-- The path has a gap at the start, and nothing but wildcards behind. -/
def GapBeforeWildcards (path : PathArray chunk_size) : Prop :=
  isnil (path.content 0) = true ∧ (∃ k, path.content k = some Symbol.any) ∧
    ∀ k, isnil (path.content k) = true ∨ path.content k = some Symbol.any

/-! ## Filling the gaps -/

/-- The symbol to fill a gap behind these elements. -/
def fillBehind (fill : String) (before : List Literal) : String :=
  if before.all fun elm => isnil elm then fill else nextFill fill

theorem nextFill_idem (fill : String) : nextFill (nextFill fill) = nextFill fill := by
  unfold nextFill
  split_ifs with h h'
  · rfl
  · rfl
  · rfl

theorem fillBehind_cons (fill : String) (elm : Literal) (before : List Literal) :
    fillBehind fill (elm :: before) =
      if isnil elm then fillBehind fill before else fillBehind (nextFill fill) before := by
  unfold fillBehind
  split_ifs with h h' h' <;> simp_all [nextFill_idem]

/-- Each element after filling the gaps, and the symbol used at the end. -/
theorem fillGaps_spec (fill : String) (elms : List Literal) :
    (fillGaps fill elms).2 = fillBehind fill elms ∧ ∀ k, (fillGaps fill elms).1[k]? =
      elms[k]?.map fun elm => if isnil elm then some (fillBehind fill (elms.take k)) else elm := by
  induction elms generalizing fill with
  | nil => exact ⟨rfl, fun k => rfl⟩
  | cons elm rest ih =>
    rw [fillBehind_cons]
    unfold fillGaps
    split_ifs with hnil
    · refine ⟨(ih fill).1, fun k => ?_⟩
      cases k with
      | zero => simp [hnil, fillBehind]
      | succ k =>
        rw [getElem?_cons_succ, getElem?_cons_succ, (ih fill).2, take_succ_cons,
          fillBehind_cons, if_pos hnil]
    · refine ⟨(ih _).1, fun k => ?_⟩
      cases k with
      | zero => simp [hnil]
      | succ k =>
        rw [getElem?_cons_succ, getElem?_cons_succ, (ih _).2, take_succ_cons,
          fillBehind_cons, if_neg hnil]

theorem all_take_iff (path : PathArray chunk_size) (k : Nat) :
    ((path.cells.take k).all fun elm => isnil elm) = true ↔ ∀ j < k, isnil (path.content j) = true := by
  rw [all_eq_true]
  constructor
  · intro h j hj
    unfold content
    cases hcell : path.cells[j]? with
    | none => rfl
    | some elm =>
      refine h elm (mem_of_getElem? (i := j) ?_)
      rw [getElem?_take, if_pos hj, hcell]
  · intro h elm helm
    obtain ⟨j, hj⟩ := mem_iff_getElem?.mp helm
    rw [getElem?_take] at hj
    split_ifs at hj with hlt
    have hnil := h j hlt
    rwa [content, hj] at hnil

theorem isnil_content_of_le (h : path.cells.length ≤ k) : isnil (path.content k) = true := by
  rw [content_eq_none h]
  rfl

/-- The symbol used at the end: the wildcard, unless there is nothing at all. -/
def lastFill (path : PathArray chunk_size) : String := (fillGaps Symbol.empty path.cells).2

theorem lastFill_of_empty (h : ∀ k, isnil (path.content k) = true) : path.lastFill = Symbol.empty := by
  have hall := (all_take_iff path path.cells.length).mpr fun j _ => h j
  rw [take_length] at hall
  rw [lastFill, (fillGaps_spec _ _).1, fillBehind, if_pos hall]

theorem lastFill_of_content (h : ¬ isnil (path.content k) = true) : path.lastFill = Symbol.any := by
  have hsome : ¬ (path.cells.all fun elm => isnil elm) = true := by
    intro hall
    rw [← take_length (l := path.cells), all_take_iff] at hall
    by_cases hk : k < path.cells.length
    · exact h (hall k hk)
    · exact h (isnil_content_of_le (Nat.le_of_not_lt hk))
  rw [lastFill, (fillGaps_spec _ _).1, fillBehind, if_neg hsome]
  rfl

theorem getElem?_filled (h : k < path.cells.length) :
    (fillGaps Symbol.empty path.cells).1[k]? = some (path.filledElm k) := by
  have hcell : path.content k = path.cells[k] := by
    rw [content, getElem?_eq_getElem h]
    rfl
  rw [(fillGaps_spec _ _).2, getElem?_eq_getElem h, Option.map_some, filledElm, hcell]
  congr 1
  by_cases hbefore : ∀ j < k, isnil (path.content j) = true
  · rw [fillBehind, if_pos ((all_take_iff path k).mpr hbefore), if_pos hbefore]
  · rw [fillBehind, if_neg (mt (all_take_iff path k).mp hbefore), if_neg hbefore]
    rfl

/-! ## Trimming the end -/

/-- The size after trimming. -/
def trimmedSize (path : PathArray chunk_size) : Nat :=
  behindLast (fun idx => (fillGaps Symbol.empty path.cells).1[idx]? ≠ some (some path.lastFill))
    (fillGaps Symbol.empty path.cells).1.length

theorem trimmedSize_le : path.trimmedSize ≤ path.cells.length := by
  have hle : path.trimmedSize ≤ (fillGaps Symbol.empty path.cells).1.length := behindLast_le
  rwa [length_fillGaps] at hle

theorem lt_trimmedSize_iff : i < path.trimmedSize ↔
    ∃ k, i ≤ k ∧ k < path.cells.length ∧ path.filledElm k ≠ some path.lastFill := by
  rw [trimmedSize, lt_behindLast_iff, length_fillGaps]
  refine exists_congr fun k => and_congr_right fun _ => and_congr_right fun hk => ?_
  rw [decide_eq_true_iff, getElem?_filled hk, ne_eq, Option.some.injEq]

theorem cells_normalise_eq (h : path.size ≠ 0) : path.normalise.cells =
    ((fillGaps Symbol.empty path.cells).1.take path.trimmedSize).rightpad chunk_size none :=
  cells_normalise h

/-- The elements of the normalised path. -/
theorem content_normalise_eq (h : path.size ≠ 0) (k : Nat) :
    path.normalise.content k = if k < path.trimmedSize then path.filledElm k else none := by
  rw [content, cells_normalise_eq h, content_rightpad, getElem?_take]
  split_ifs with hk
  · rw [getElem?_filled (Nat.lt_of_lt_of_le hk trimmedSize_le)]
    rfl
  · rfl

theorem isSome_filledElm (k : Nat) : (path.filledElm k).isSome = true := by
  unfold filledElm
  split_ifs with hnil hbefore
  · rfl
  · rfl
  · exact isSome_of_not_isnil hnil

theorem length_normalise (h : path.size ≠ 0) : path.normalise.cells.length = max chunk_size path.trimmedSize := by
  have hle : path.trimmedSize ≤ path.cells.length := trimmedSize_le
  rw [cells_normalise_eq h, length_rightpad, length_take, length_fillGaps, Nat.min_eq_left hle]

/-- The size of the normalised path. -/
theorem size_normalise (h : path.size ≠ 0) : path.normalise.size = path.trimmedSize := by
  refine size_eq (fun k hk => ?_) (fun k hk => ?_) (Nat.le_of_eq (length_normalise h))
  · rw [content_normalise_eq h, if_pos hk]
    exact isSome_filledElm k
  · rw [content_normalise_eq h, if_neg (Nat.not_lt.mpr hk)]

/-! ## The contract -/

theorem normalise_of_size_eq (h : path.size = 0) : path.normalise = path := if_pos h

theorem isnil_filledElm_iff : isnil (path.filledElm k) = true ↔ ∀ j ≤ k, isnil (path.content j) = true := by
  unfold filledElm
  split_ifs with hnil hbefore
  · refine iff_of_true rfl fun j hj => ?_
    rcases Nat.lt_or_eq_of_le hj with hlt | rfl
    · exact hbefore j hlt
    · exact hnil
  · refine iff_of_false (by decide) fun hall => hbefore fun j hj => hall j hj.le
  · exact iff_of_false hnil fun hall => hnil (hall k le_rfl)

theorem content_eq_none_of_size (h : path.size = 0) (k : Nat) : path.content k = none := by
  rw [← Option.not_isSome_iff_eq_none]
  intro hsome
  have hlt := lt_size_of_content hsome
  omega

theorem lt_length_of_not_isnil (h : ¬ isnil (path.content k) = true) : k < path.cells.length := by
  by_contra hk
  exact h (isnil_content_of_le (Nat.le_of_not_lt hk))

theorem trimmedSize_of_empty (h : ∀ k, isnil (path.content k) = true) : path.trimmedSize = 0 := by
  by_contra hne
  obtain ⟨k, -, -, hk⟩ := lt_trimmedSize_iff.mp (Nat.pos_of_ne_zero hne)
  rw [lastFill_of_empty h, filledElm, if_pos (h k), if_pos fun j _ => h j] at hk
  exact hk rfl

theorem filledElm_last_ne (h : 0 < path.trimmedSize) :
    path.filledElm (path.trimmedSize - 1) ≠ some path.lastFill := by
  obtain ⟨k, hle, hlt, hne⟩ := lt_trimmedSize_iff.mp (Nat.sub_lt h Nat.zero_lt_one)
  have hk : k < path.trimmedSize := lt_trimmedSize_iff.mpr ⟨k, le_rfl, hlt, hne⟩
  obtain rfl : k = path.trimmedSize - 1 := by omega
  exact hne

theorem filledElm_trimmed (hk : path.trimmedSize ≤ k) (hlt : k < path.cells.length) :
    path.filledElm k = some path.lastFill := by
  by_contra hne
  have hkeep := lt_trimmedSize_iff.mpr ⟨k, le_rfl, hlt, hne⟩
  omega

/-- The last element is not empty, unless a gap is followed by nothing but wildcards. -/
theorem not_isnil_last (hgap : ¬ path.GapBeforeWildcards) (h : 0 < path.trimmedSize) :
    ¬ isnil (path.filledElm (path.trimmedSize - 1)) = true := by
  intro hnil
  have hbefore := isnil_filledElm_iff.mp hnil
  obtain ⟨k₀, hk₀⟩ : ∃ k, ¬ isnil (path.content k) = true := by
    by_contra hnone
    push Not at hnone
    have hzero := trimmedSize_of_empty hnone
    omega
  have hfill : path.lastFill = Symbol.any := lastFill_of_content hk₀
  -- all the content there is has been trimmed
  have hwild : ∀ k, ¬ isnil (path.content k) = true → path.content k = some Symbol.any := by
    intro k hk
    have htrimmed : path.trimmedSize ≤ k := by
      by_contra hlt
      exact hk (hbefore k (by omega))
    have helm := filledElm_trimmed htrimmed (lt_length_of_not_isnil hk)
    rwa [filledElm, if_neg hk, hfill] at helm
  refine hgap ⟨hbefore 0 (Nat.zero_le _), ⟨k₀, hwild k₀ hk₀⟩, fun k => ?_⟩
  by_cases hk : isnil (path.content k) = true
  · exact .inl hk
  · exact .inr (hwild k hk)

/-- The contract holds if and only if there is not just a gap before wildcards. -/
theorem contract_iff (path : PathArray chunk_size) : Contract path path.normalise ↔ ¬ path.GapBeforeWildcards := by
  by_cases hsize : path.size = 0
  · have hnone := content_eq_none_of_size hsize
    rw [normalise_of_size_eq hsize]
    refine iff_of_true ⟨fun k hk => ?_, fun i => ?_⟩ ?_
    · omega
    · refine iff_of_false (by omega) ?_
      rintro ⟨k, -, hk⟩
      rw [hnone k] at hk
      exact hk rfl
    · rintro ⟨-, ⟨k, hk⟩, -⟩
      rw [hnone k] at hk
      cases hk
  · constructor
    · rintro ⟨-, hcount⟩ ⟨hfirst, ⟨k₀, hk₀⟩, hall⟩
      have hnil₀ : ¬ isnil (path.content k₀) = true := by
        rw [hk₀]
        decide
      have hfill : path.lastFill = Symbol.any := lastFill_of_content hnil₀
      -- the gap remains, as it is not filled by the wildcard
      have hkeep : 0 < path.trimmedSize := by
        refine lt_trimmedSize_iff.mpr
          ⟨0, le_rfl, Nat.zero_lt_of_lt (lt_length_of_not_isnil hnil₀), ?_⟩
        rw [filledElm, if_pos hfirst, if_pos fun j hj => absurd hj (Nat.not_lt_zero j), hfill]
        decide
      rw [← size_normalise hsize] at hkeep
      obtain ⟨k, -, hk⟩ := (hcount 0).mp hkeep
      rw [content_normalise_eq hsize] at hk
      split_ifs at hk with hlt
      · -- whatever remains is followed by something other than a wildcard, which is a part of the gap
        obtain ⟨k', hle, -, hne⟩ := lt_trimmedSize_iff.mp hlt
        rw [hfill] at hne
        refine hk (isnil_filledElm_iff.mpr fun j hj => ?_)
        rcases hall k' with hnil | hstar
        · rw [filledElm] at hne
          split_ifs at hne with hbefore
          · rcases Nat.lt_or_eq_of_le (hj.trans hle) with hjlt | rfl
            · exact hbefore j hjlt
            · exact hnil
          · exact absurd rfl hne
        · rw [filledElm, hstar] at hne
          exact absurd rfl hne
      · exact hk rfl
    · intro hgap
      constructor
      · intro k hk
        rw [size_normalise hsize] at hk
        rw [content_normalise_eq hsize, if_pos hk]
      · intro i
        rw [size_normalise hsize]
        constructor
        · intro hi
          refine ⟨path.trimmedSize - 1, by omega, ?_⟩
          rw [content_normalise_eq hsize, if_pos (by omega)]
          exact not_isnil_last hgap (by omega)
        · rintro ⟨k, hik, hk⟩
          rw [content_normalise_eq hsize] at hk
          split_ifs at hk with hlt
          · omega
          · exact absurd rfl hk

/-! ## Normalising again -/

theorem eq_of_content {path' : PathArray chunk_size} (hlength : path.cells.length = path'.cells.length)
    (hcontent : ∀ k, path.content k = path'.content k) : path = path' := by
  obtain ⟨cells, hle⟩ := path
  congr 1
  refine ext_getElem hlength fun k hk hk' => ?_
  have hsame := hcontent k
  unfold content at hsame
  rw [getElem?_eq_getElem hk, getElem?_eq_getElem hk'] at hsame
  exact hsame

theorem filledElm_normalise (hsize : path.size ≠ 0) (hk : k < path.trimmedSize) :
    path.normalise.filledElm k = path.filledElm k := by
  have hcontent : ∀ j < path.trimmedSize, path.normalise.content j = path.filledElm j := fun j hj => by
    rw [content_normalise_eq hsize, if_pos hj]
  rw [filledElm, hcontent k hk]
  by_cases hnil : isnil (path.filledElm k)
  · -- the elements before belong to the same gap
    have hall := isnil_filledElm_iff.mp hnil
    have hbefore : ∀ j < k, isnil (path.normalise.content j) := fun j hj => by
      rw [hcontent j (hj.trans hk)]
      exact isnil_filledElm_iff.mpr fun i hi => hall i (hi.trans hj.le)
    rw [if_pos hnil, if_pos hbefore, filledElm, if_pos (hall k le_rfl), if_pos fun j hj => hall j hj.le]
  · rw [if_neg hnil]

/-- A path which fulfils the contract is not changed by normalising it again. -/
theorem normalise_idem (hgap : ¬ path.GapBeforeWildcards) : path.normalise.normalise = path.normalise := by
  by_cases hsize : path.size = 0
  · rw [normalise_of_size_eq hsize, normalise_of_size_eq hsize]
  by_cases hzero : path.trimmedSize = 0
  · have hnone : path.normalise.size = 0 := by
      rw [size_normalise hsize, hzero]
    rw [normalise_of_size_eq hnone]
  have hsize' : path.normalise.size ≠ 0 := by
    rwa [size_normalise hsize]
  have hlast : ¬ isnil (path.normalise.content (path.trimmedSize - 1)) = true := by
    rw [content_normalise_eq hsize, if_pos (by omega)]
    exact not_isnil_last hgap (by omega)
  have hfill : path.normalise.lastFill = path.lastFill := by
    obtain ⟨k, hk⟩ : ∃ k, ¬ isnil (path.content k) = true := by
      by_contra hnone
      push Not at hnone
      exact hzero (trimmedSize_of_empty hnone)
    rw [lastFill_of_content hlast, lastFill_of_content hk]
  -- behind the end, the cells are filled with the wildcard and trimmed again
  have hbehind : ∀ k, path.trimmedSize ≤ k → path.normalise.filledElm k = some path.normalise.lastFill := by
    intro k hk
    have hnone : path.normalise.content k = none := by
      rw [content_normalise_eq hsize, if_neg (by omega)]
    have hnil : isnil none = true := rfl
    rw [filledElm, hnone, if_pos hnil, if_neg, lastFill_of_content hlast]
    intro hall
    exact hlast (hall _ (by omega))
  have htrimmed : path.normalise.trimmedSize = path.trimmedSize := by
    refine eq_of_forall_lt_iff fun i => ?_
    rw [lt_trimmedSize_iff]
    constructor
    · rintro ⟨k, hik, -, hne⟩
      by_contra hi
      exact hne (hbehind k (by omega))
    · intro hi
      refine ⟨path.trimmedSize - 1, by omega, ?_, ?_⟩
      · rw [length_normalise hsize]
        omega
      · rw [filledElm_normalise hsize (by omega), hfill]
        exact filledElm_last_ne (by omega)
  refine eq_of_content ?_ fun k => ?_
  · rw [length_normalise hsize', length_normalise hsize, htrimmed]
  · rw [content_normalise_eq hsize', htrimmed, content_normalise_eq hsize]
    split_ifs with hk
    · exact filledElm_normalise hsize hk
    · rfl

/-- Normalising works as expected if and only if there is not just a gap before wildcards. -/
theorem normalises_iff_not_gap (path : PathArray chunk_size) : Normalises path ↔ ¬ path.GapBeforeWildcards :=
  ⟨fun h => (contract_iff path).mp h.contract, fun hgap => ⟨(contract_iff path).mpr hgap, normalise_idem hgap⟩⟩

end PathArray

end Lumiera.Lib
