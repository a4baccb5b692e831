import Mathlib.Data.List.Basic
import Mathlib.Order.MinMax

/-! # Path arrays

`PathArray` is a sequence of literals with a fixed number of inline cells and a heap allocated
extension, which is only there when needed. A cell holds a pointer, which may be null. The cells of
both parts form one list here: the first `chunk_size` of them are the inline array, the others are
the extension, which exists if there are any. -/

namespace Lumiera.Lib

open List

/-! ## Literals -/

/-- A literal: a pointer to a string, or null. Comparison treats null like the empty string. -/
abbrev Literal : Type := Option String

/-- The literal is null or empty. -/
def isnil (elm : Literal) : Bool := elm.getD "" = ""

namespace Symbol

/-- The wildcard. -/
def any : String := "*"

/-- The empty symbol. -/
def empty : String := ""

/-- The symbol for something which does not exist. -/
def bottom : String := "⟂"

end Symbol

/-! ## Searching from the end -/

/-- One behind the last index below `n` which meets a condition, and zero if there is none. -/
def behindLast (cond : Nat → Bool) : Nat → Nat
  | 0 => 0
  | n + 1 => if cond n then n + 1 else behindLast cond n

theorem lt_behindLast_iff {cond : Nat → Bool} {n i : Nat} :
    i < behindLast cond n ↔ ∃ k, i ≤ k ∧ k < n ∧ cond k = true := by
  induction n with
  | zero => simp [behindLast]
  | succ n ih =>
    unfold behindLast
    split_ifs with hn
    · constructor
      · intro hi
        exact ⟨n, by omega, by omega, hn⟩
      · rintro ⟨k, hik, hkn, -⟩
        omega
    · rw [ih]
      constructor
      · rintro ⟨k, hik, hkn, hk⟩
        exact ⟨k, hik, by omega, hk⟩
      · rintro ⟨k, hik, hkn, hk⟩
        -- the last index was just ruled out
        have hne : k ≠ n := by
          rintro rfl
          exact hn hk
        exact ⟨k, hik, by omega, hk⟩

theorem behindLast_le {cond : Nat → Bool} {n : Nat} : behindLast cond n ≤ n := by
  induction n with
  | zero => exact Nat.le_refl 0
  | succ n ih =>
    unfold behindLast
    split_ifs
    · exact Nat.le_refl _
    · omega

/-! ## The data structure -/

/-- A path array: the inline cells and behind them the cells of the extension. -/
structure PathArray (chunk_size : Nat) where
  cells : List Literal
  chunk_size_le : chunk_size ≤ cells.length

namespace PathArray

variable {chunk_size : Nat}

/-- The literal stored at an index, null if there is no such cell. -/
def content (path : PathArray chunk_size) (idx : Nat) : Literal := path.cells[idx]?.join

/-- One behind the last inline cell which is used. -/
def findInlineEnd (path : PathArray chunk_size) : Nat :=
  behindLast (fun idx => (path.content idx).isSome) chunk_size

/-- The number of elements: with an extension, all of its cells count. -/
def size (path : PathArray chunk_size) : Nat :=
  if chunk_size < path.cells.length then path.cells.length else path.findInlineEnd

/-- The first inline cell is null. -/
def isEmpty (path : PathArray chunk_size) : Bool := (path.content 0).isNone

/-- Access to an element, if there is one: an inline cell must not be null. -/
def getPosition (path : PathArray chunk_size) (idx : Nat) : Option Literal :=
  if idx < chunk_size then (path.content idx).map some else path.cells[idx]?

/-- The extension gets a new size, with null in the cells added. -/
def resizeTail (path : PathArray chunk_size) (cnt : Nat) : PathArray chunk_size where
  cells := (path.cells.take (chunk_size + cnt)).rightpad (chunk_size + cnt) none
  chunk_size_le := by
    rw [length_rightpad]
    omega

/-- Ensure that there is a cell for the index. -/
def expandPosition (path : PathArray chunk_size) (idx : Nat) : PathArray chunk_size :=
  if chunk_size ≤ idx ∧ path.size ≤ idx then path.resizeTail (idx + 1 - chunk_size) else path

/-- Place something into a cell. -/
def setContent (path : PathArray chunk_size) (idx : Nat) (val : Literal) : PathArray chunk_size where
  cells := path.cells.set idx val
  chunk_size_le := by
    rw [length_set]
    exact path.chunk_size_le

/-- Place something at an index, expanding the storage if necessary. -/
def setAt (path : PathArray chunk_size) (idx : Nat) (val : Literal) : PathArray chunk_size :=
  (path.expandPosition idx).setContent idx val

/-- The loop which places several elements at consecutive indices. -/
def writeFrom (path : PathArray chunk_size) (idx : Nat) : List Literal → PathArray chunk_size
  | [] => path
  | val :: vals => writeFrom (path.setAt idx val) (idx + 1) vals

/-- All inline cells from the given one on are set to null. -/
def clearInline (path : PathArray chunk_size) (idx : Nat) : PathArray chunk_size where
  cells := (path.cells.take chunk_size).take idx ++ List.replicate (chunk_size - idx) none ++
    path.cells.drop chunk_size
  chunk_size_le := by
    have hcells : chunk_size ≤ path.cells.length := path.chunk_size_le
    simp only [length_append, length_take, length_replicate, length_drop]
    omega

/-- Shorten the path. The inline cells are only cleared when the first one to be cleared is used. -/
def truncateTo (path : PathArray chunk_size) (newSize : Nat) : PathArray chunk_size :=
  if newSize < chunk_size then
    (if (path.content newSize).isSome then path.clearInline newSize else path).resizeTail 0
  else if newSize - chunk_size < path.cells.length - chunk_size then
    path.resizeTail (newSize - chunk_size)
  else path

/-- The symbol for filling gaps behind an element which is not empty. -/
def nextFill (fill : String) : String := if fill = Symbol.empty then Symbol.any else fill

/-- Fill the gaps: leading ones with the empty symbol and all others with the wildcard. The result
comes with the symbol used for filling at the end. -/
def fillGaps (fill : String) : List Literal → List Literal × String
  | [] => ([], fill)
  | elm :: rest =>
    if isnil elm then
      (some fill :: (fillGaps fill rest).1, (fillGaps fill rest).2)
    else
      (elm :: (fillGaps (nextFill fill) rest).1, (fillGaps (nextFill fill) rest).2)

/-- The cells which remain after trimming the symbol used for filling at the end. -/
def trimFill (filled : List Literal × String) : List Literal :=
  filled.1.take (behindLast (fun idx => filled.1[idx]? ≠ some (some filled.2)) filled.1.length)

/-- **Normalise** the path: fill all gaps and trim the storage at the end. -/
def normalise (path : PathArray chunk_size) : PathArray chunk_size :=
  if path.size = 0 then path
  else
    { cells := (trimFill (fillGaps Symbol.empty path.cells)).rightpad chunk_size none
      chunk_size_le := by
        rw [length_rightpad]
        omega }

/-- All elements reached when iterating from the start of the storage: a null in the inline array ends the
iteration. -/
def stored (path : PathArray chunk_size) : List Literal :=
  if ((path.cells.take chunk_size).takeWhile Option.isSome).length = chunk_size then path.cells
  else (path.cells.take chunk_size).takeWhile Option.isSome

/-- The elements which an iteration yields: it begins with the first element which is not empty. -/
def elements (path : PathArray chunk_size) : List Literal := path.stored.dropWhile fun elm => isnil elm

/-- The index of the first element which an iteration yields. -/
def startIdx (path : PathArray chunk_size) : Nat := (path.stored.takeWhile fun elm => isnil elm).length

/-! ## Contents -/

variable {path : PathArray chunk_size} {i n : Nat}

theorem content_eq_none (h : path.cells.length ≤ i) : path.content i = none := by
  unfold content
  rw [getElem?_eq_none h]
  rfl

theorem lt_length_of_content (h : (path.content i).isSome = true) : i < path.cells.length := by
  by_contra hi
  rw [content_eq_none (by omega)] at h
  cases h

theorem lt_size_iff : i < path.size ↔ (∃ k, i ≤ k ∧ (path.content k).isSome = true) ∨
    (chunk_size < path.cells.length ∧ i < path.cells.length) := by
  unfold size
  split_ifs with htail
  · constructor
    · intro hi
      exact .inr ⟨htail, hi⟩
    · rintro (⟨k, hik, hk⟩ | ⟨-, hi⟩)
      · have hlt : k < path.cells.length := lt_length_of_content hk
        omega
      · exact hi
  · unfold findInlineEnd
    rw [lt_behindLast_iff]
    constructor
    · rintro ⟨k, hik, -, hk⟩
      exact .inl ⟨k, hik, hk⟩
    · rintro (⟨k, hik, hk⟩ | ⟨h, -⟩)
      · have hlt : k < path.cells.length := lt_length_of_content hk
        exact ⟨k, hik, by omega, hk⟩
      · omega

theorem lt_size_of_content (h : (path.content i).isSome = true) : i < path.size :=
  lt_size_iff.mpr (.inl ⟨i, Nat.le_refl i, h⟩)

theorem size_le_length : path.size ≤ path.cells.length := by
  by_contra h
  obtain ⟨k, hk, hsome⟩ | ⟨-, hlt⟩ := lt_size_iff.mp (Nat.lt_of_not_le h)
  · have hlt : k < path.cells.length := lt_length_of_content hsome
    omega
  · omega

theorem size_eq_length (h : chunk_size < path.cells.length) : path.size = path.cells.length := by
  unfold size
  rw [if_pos h]

theorem size_eq (hused : ∀ k < n, (path.content k).isSome = true) (hfree : ∀ k, n ≤ k → path.content k = none)
    (hlength : path.cells.length ≤ max chunk_size n) : path.size = n := by
  refine Nat.le_antisymm ?_ ?_
  · by_contra h
    obtain ⟨k, hk, hsome⟩ | ⟨htail, hlt⟩ := lt_size_iff.mp (Nat.lt_of_not_le h)
    · rw [hfree k hk] at hsome
      cases hsome
    · omega
  · cases n with
    | zero => exact Nat.zero_le _
    | succ n => exact lt_size_of_content (hused n (Nat.lt_succ_self n))

/-! ### After each operation -/

theorem getElem?_resizeTail (cnt k : Nat) : (path.resizeTail cnt).cells[k]? =
    if k < chunk_size + cnt then some (path.content k) else none := by
  unfold resizeTail content List.rightpad
  simp only [getElem?_append, length_take, getElem?_take, getElem?_replicate]
  split_ifs with h₁ h₂ h₃ h₄ <;> first | omega | skip
  · rw [getElem?_eq_getElem (by omega)]
    rfl
  · rw [getElem?_eq_none (by omega)]
    rfl
  · rfl

theorem content_resizeTail (cnt k : Nat) :
    (path.resizeTail cnt).content k = if k < chunk_size + cnt then path.content k else none := by
  rw [content, getElem?_resizeTail]
  split_ifs
  · rfl
  · rfl

theorem length_resizeTail (cnt : Nat) : (path.resizeTail cnt).cells.length = chunk_size + cnt := by
  unfold resizeTail
  rw [length_rightpad, length_take]
  omega

@[simp] theorem content_expandPosition (idx k : Nat) :
  (path.expandPosition idx).content k = path.content k := by
  unfold expandPosition
  split_ifs with h
  · rw [content_resizeTail]
    split_ifs with hk
    · rfl
    · -- nothing is stored behind the end
      rw [eq_comm, ← Option.not_isSome_iff_eq_none]
      intro hsome
      have hlt : k < path.size := lt_size_of_content hsome
      omega
  · rfl

theorem length_expandPosition (idx : Nat) :
    (path.expandPosition idx).cells.length = max path.cells.length
    (if chunk_size ≤ idx then idx + 1 else 0) := by
  unfold expandPosition
  split_ifs with h hidx hidx
  · rw [length_resizeTail]
    have hsize : path.cells.length ≤ idx + 1 := by
      by_contra hlt
      have hlast : idx < path.size := lt_size_iff.mpr (.inr ⟨by omega, by omega⟩)
      omega
    omega
  · omega
  · have hle : path.size ≤ path.cells.length := size_le_length
    omega
  · omega

variable {idx : Nat}

theorem content_setContent (h : idx < path.cells.length) (val : Literal) (k : Nat) :
    (path.setContent idx val).content k = if k = idx then val else path.content k := by
  unfold setContent content
  rw [getElem?_set]
  by_cases hk : idx = k
  · rw [if_pos hk, if_pos h, if_pos hk.symm]
    rfl
  · rw [if_neg hk, if_neg (Ne.symm hk)]

theorem content_setAt (idx : Nat) (val : Literal) (k : Nat) :
    (path.setAt idx val).content k = if k = idx then val else path.content k := by
  have hcells : chunk_size ≤ path.cells.length := path.chunk_size_le
  have hlt : idx < (path.expandPosition idx).cells.length := by
    rw [length_expandPosition]
    split_ifs <;> omega
  rw [setAt, content_setContent hlt, content_expandPosition]

theorem length_setAt (idx : Nat) (val : Literal) :
    (path.setAt idx val).cells.length = max path.cells.length (if chunk_size ≤ idx then idx + 1 else 0) := by
  unfold setAt setContent
  rw [length_set, length_expandPosition]

theorem size_setAt_some (idx : Nat) (val : String) : (path.setAt idx (some val)).size = max path.size (idx + 1) := by
  have hset : ∀ k, (path.setAt idx (some val)).content k = if k = idx then some val else path.content k :=
    content_setAt idx (some val)
  have hlength : (path.setAt idx (some val)).cells.length =
      max path.cells.length (if chunk_size ≤ idx then idx + 1 else 0) := length_setAt idx (some val)
  refine eq_of_forall_lt_iff fun k => ?_
  rw [lt_max_iff, lt_size_iff, lt_size_iff, hlength]
  constructor
  · rintro (⟨j, hkj, hj⟩ | ⟨htail, hk⟩)
    · rw [hset] at hj
      split_ifs at hj with hidx
      · exact .inr (by omega)
      · exact .inl (.inl ⟨j, hkj, hj⟩)
    · split_ifs at htail hk with hidx
      · by_cases hkidx : k < idx + 1
        · exact .inr hkidx
        · exact .inl (.inr ⟨by omega, by omega⟩)
      · exact .inl (.inr ⟨by omega, by omega⟩)
  · rintro ((⟨j, hkj, hj⟩ | ⟨htail, hk⟩) | hk)
    · refine .inl ⟨j, hkj, ?_⟩
      rw [hset]
      split_ifs
      · rfl
      · exact hj
    · refine .inr ⟨by omega, by omega⟩
    · refine .inl ⟨idx, by omega, ?_⟩
      rw [hset, if_pos rfl]
      rfl

theorem content_writeFrom (vals : List Literal) (idx k : Nat) :
    (path.writeFrom idx vals).content k =
      if idx ≤ k ∧ k < idx + vals.length then vals[k - idx]?.join else path.content k := by
  induction vals generalizing path idx with
  | nil =>
    rw [if_neg (by simp)]
    rfl
  | cons val vals ih =>
    rw [writeFrom, ih, content_setAt, length_cons]
    by_cases hk : k = idx
    · subst hk
      rw [if_neg (by omega), if_pos rfl, if_pos (by omega), Nat.sub_self]
      rfl
    · rw [if_neg hk]
      by_cases hlt : idx + 1 ≤ k ∧ k < idx + 1 + vals.length
      · rw [if_pos hlt, if_pos (by omega), show k - idx = k - (idx + 1) + 1 by omega,
          getElem?_cons_succ]
      · rw [if_neg hlt, if_neg (by omega)]

theorem length_writeFrom (vals : List Literal) (idx : Nat) (h : idx + vals.length ≤ path.cells.length) :
    (path.writeFrom idx vals).cells.length = path.cells.length := by
  induction vals generalizing path idx with
  | nil => rfl
  | cons val vals ih =>
    rw [length_cons] at h
    have hset : (path.setAt idx val).cells.length = path.cells.length := by
      rw [length_setAt]
      split_ifs <;> omega
    rw [writeFrom, ih (idx + 1) (by omega), hset]

/-! ## Without holes -/

/-- The inline cells within the size are all used. -/
def Solid (path : PathArray chunk_size) : Prop :=
  ∀ k, k < path.size → k < chunk_size → (path.content k).isSome = true

theorem Solid.content_eq_none (h : path.Solid) (hn : n < chunk_size) (hnone : path.content n = none) {k : Nat}
    (hk : n ≤ k) : path.content k = none := by
  rw [← Option.not_isSome_iff_eq_none]
  intro hsome
  have hlt : n < path.size := Nat.lt_of_le_of_lt hk (lt_size_of_content hsome)
  have hused : (path.content n).isSome = true := h n hlt hn
  rw [hnone] at hused
  cases hused

theorem Solid.getPosition (h : path.Solid) (hi : i < path.size) : path.getPosition i = some (path.content i) := by
  unfold PathArray.getPosition
  split_ifs with hinline
  · obtain ⟨elm, helm⟩ := Option.isSome_iff_exists.mp (h i hi hinline)
    rw [helm]
    rfl
  · have hle : path.size ≤ path.cells.length := size_le_length
    unfold content
    rw [getElem?_eq_getElem (by omega)]
    rfl

theorem Solid.setAt (h : path.Solid) (hidx : idx ≤ path.size) (val : String) : (path.setAt idx (some val)).Solid := by
  intro k hk hinline
  rw [size_setAt_some] at hk
  rw [content_setAt]
  split_ifs with hkidx
  · rfl
  · exact h k (by omega) hinline

theorem Solid.writeFrom (h : path.Solid) (hidx : idx ≤ path.size) (vals : List String) :
    (path.writeFrom idx (vals.map some)).Solid := by
  induction vals generalizing path idx with
  | nil => exact h
  | cons val vals ih =>
    refine ih (h.setAt hidx val) ?_
    rw [size_setAt_some]
    exact Nat.le_max_right _ _

theorem content_clearInline (idx k : Nat) : (path.clearInline idx).content k =
    if idx ≤ k ∧ k < chunk_size then none else path.content k := by
  have hcells : chunk_size ≤ path.cells.length := path.chunk_size_le
  unfold clearInline content
  simp only [getElem?_append, length_append, length_take, length_replicate,
    getElem?_take, getElem?_replicate, getElem?_drop]
  by_cases hidx : idx ≤ chunk_size
  · rw [show min idx (min chunk_size path.cells.length) = idx by omega]
    split_ifs <;> first | omega | rfl | skip
    rw [show chunk_size + (k - (idx + (chunk_size - idx))) = k by omega]
  · rw [show min idx (min chunk_size path.cells.length) = chunk_size by omega]
    split_ifs <;> first | omega | rfl | skip
    rw [show chunk_size + (k - (chunk_size + (chunk_size - idx))) = k by omega]

theorem Solid.content_truncateTo (h : path.Solid) (k : Nat) :
    (path.truncateTo n).content k = if k < n then path.content k else none := by
  unfold truncateTo
  split_ifs with hinline hused hk hk htail hk hk <;>
    first
      | rw [content_resizeTail, content_clearInline]
      | rw [content_resizeTail]
      | skip
  · rw [if_pos (by omega), if_neg (by omega)]
  · split_ifs with hchunk hle <;> first | rfl | omega
  · rw [if_pos (by omega)]
  · -- the cell at the new end is not used, so nothing is there to be cleared
    rw [h.content_eq_none hinline (Option.not_isSome_iff_eq_none.mp hused) (Nat.le_of_not_lt hk), ite_self]
  · rw [if_pos (by omega)]
  · rw [if_neg (by omega)]
  · rfl
  · exact PathArray.content_eq_none (by have := path.chunk_size_le; omega)

theorem length_truncateTo :
    (path.truncateTo n).cells.length = if n < chunk_size then chunk_size else min n path.cells.length := by
  unfold truncateTo
  split_ifs <;> first | rw [length_resizeTail] | skip
  all_goals omega

theorem Solid.size_truncateTo (h : path.Solid) (hused : ∀ k < n, (path.content k).isSome = true) :
    (path.truncateTo n).size = n := by
  refine size_eq (fun k hk => ?_) (fun k hk => ?_) ?_
  · rw [h.content_truncateTo, if_pos hk]
    exact hused k hk
  · rw [h.content_truncateTo, if_neg (by omega)]
  · rw [length_truncateTo]
    split_ifs <;> omega

theorem Solid.truncateTo (h : path.Solid) (hused : ∀ k < n, (path.content k).isSome = true) :
    (path.truncateTo n).Solid := by
  intro k hk hinline
  rw [h.size_truncateTo hused] at hk
  rw [h.content_truncateTo, if_pos hk]
  exact hused k hk

/-! ## Paths of names -/

/-- The path consists of exactly these names. -/
structure IsNames (path : PathArray chunk_size) (names : List String) : Prop where
  content_eq : ∀ k, path.content k = names[k]?
  length_eq : path.cells.length = max chunk_size names.length

variable {names : List String}

theorem IsNames.isSome (h : path.IsNames names) (hi : i < names.length) : (path.content i).isSome = true := by
  rw [h.content_eq, getElem?_eq_getElem hi]
  rfl

theorem IsNames.size (h : path.IsNames names) : path.size = names.length := by
  refine size_eq (fun k hk => h.isSome hk) (fun k hk => ?_) (Nat.le_of_eq h.length_eq)
  rw [h.content_eq, getElem?_eq_none hk]

theorem IsNames.solid (h : path.IsNames names) : path.Solid := by
  intro k hk _
  rw [h.size] at hk
  exact h.isSome hk

theorem IsNames.setAt (h : path.IsNames names) (hidx : idx ≤ names.length) (val : String) :
    (path.setAt idx (some val)).IsNames (names.take idx ++ val :: names.drop (idx + 1)) := by
  constructor
  · intro k
    rw [content_setAt, h.content_eq, getElem?_append, length_take, Nat.min_eq_left hidx,
      getElem?_take]
    split_ifs with hk hlt hlt
    · omega
    · rw [hk, Nat.sub_self]
      rfl
    · rfl
    · rw [show k - idx = k - (idx + 1) + 1 by omega, getElem?_cons_succ, getElem?_drop,
        show idx + 1 + (k - (idx + 1)) = k by omega]
  · rw [length_setAt, h.length_eq, length_append, length_take, length_cons, length_drop]
    split_ifs <;> omega

theorem IsNames.truncateTo (h : path.IsNames names) (hn : n ≤ names.length) :
    (path.truncateTo n).IsNames (names.take n) := by
  constructor
  · intro k
    rw [h.solid.content_truncateTo, getElem?_take, h.content_eq]
  · rw [length_truncateTo, h.length_eq, length_take]
    split_ifs <;> omega

/-! ## Normalised paths -/

/-- The symbols used to fill gaps. -/
def IsFill (s : String) : Prop := s = Symbol.empty ∨ s = Symbol.any

variable {fill : String}

theorem IsFill.next (h : IsFill fill) : IsFill (nextFill fill) := by
  unfold nextFill
  split_ifs
  · exact .inr rfl
  · exact h

theorem fillGaps_isFill (h : IsFill fill) (elms : List Literal) : IsFill (fillGaps fill elms).2 := by
  induction elms generalizing fill with
  | nil => exact h
  | cons elm rest ih =>
    unfold fillGaps
    split_ifs with hnil
    · exact ih h
    · exact ih h.next

theorem length_fillGaps (fill : String) (elms : List Literal) : (fillGaps fill elms).1.length = elms.length := by
  induction elms generalizing fill with
  | nil => rfl
  | cons elm rest ih =>
    unfold fillGaps
    split_ifs with hnil
    · exact congrArg (· + 1) (ih fill)
    · exact congrArg (· + 1) (ih _)

theorem isSome_of_not_isnil {elm : Literal} (h : ¬isnil elm = true) : elm.isSome = true := by
  cases elm with
  | none => exact absurd rfl h
  | some s => rfl

theorem fillGaps_isSome (fill : String) (elms : List Literal) :
    ∀ elm ∈ (fillGaps fill elms).1, elm.isSome = true := by
  induction elms generalizing fill with
  | nil =>
    intro elm h
    cases h
  | cons elm rest ih =>
    unfold fillGaps
    split_ifs with hnil
    · intro e he
      rcases mem_cons.mp he with rfl | he
      · rfl
      · exact ih fill e he
    · intro e he
      rcases mem_cons.mp he with rfl | he
      · exact isSome_of_not_isnil hnil
      · exact ih _ e he

variable {s : String}

theorem getElem?_fillGaps (hfill : IsFill fill) (hs : ¬IsFill s) (elms : List Literal) (i : Nat) :
    (fillGaps fill elms).1[i]? = some (some s) ↔ elms[i]? = some (some s) := by
  induction elms generalizing fill i with
  | nil => rfl
  | cons elm rest ih =>
    unfold fillGaps
    split_ifs with hnil
    · cases i with
      | zero =>
        constructor
        · intro h
          cases h
          exact absurd hfill hs
        · intro h
          cases h
          exact absurd (.inl (of_decide_eq_true hnil)) hs
      | succ i => exact ih hfill i
    · cases i with
      | zero => rfl
      | succ i => exact ih hfill.next i

theorem getElem?_trimFill {filled : List Literal × String} (hs : s ≠ filled.2) (i : Nat) :
    (trimFill filled)[i]? = some (some s) ↔ filled.1[i]? = some (some s) := by
  unfold trimFill
  rw [getElem?_take]
  split_ifs with hi
  · rfl
  · constructor
    · intro h
      cases h
    · intro h
      -- whatever is trimmed equals the symbol used for filling
      refine absurd (lt_behindLast_iff.mpr ⟨i, Nat.le_refl i, (List.getElem?_eq_some_iff.mp h).1, ?_⟩) hi
      rw [h]
      refine decide_eq_true fun heq => hs ?_
      cases heq
      rfl

theorem cells_normalise (h : path.size ≠ 0) : path.normalise.cells =
    (trimFill (fillGaps Symbol.empty path.cells)).rightpad chunk_size none := by
  unfold normalise
  rw [if_neg h]

theorem content_rightpad {elms : List Literal} (k : Nat) : (elms.rightpad n none)[k]?.join = elms[k]?.join := by
  unfold List.rightpad
  rw [getElem?_append]
  split_ifs with hk
  · rfl
  · rw [getElem?_eq_none (Nat.le_of_not_lt hk), getElem?_replicate]
    split_ifs <;> rfl

theorem join_eq_some {elm : Option Literal} : elm.join = some s ↔ elm = some (some s) := by
  cases elm with
  | none => simp
  | some elm =>
    cases elm with
    | none => simp
    | some t => simp

/-- Normalising keeps every name at its position and adds none. -/
theorem content_normalise (hs : ¬IsFill s) : path.normalise.content i = some s ↔ path.content i = some s := by
  by_cases h : path.size = 0
  · rw [normalise, if_pos h]
  · have hfill : IsFill (fillGaps Symbol.empty path.cells).2 := fillGaps_isFill (.inl rfl) path.cells
    have hne : s ≠ (fillGaps Symbol.empty path.cells).2 := by
      rintro rfl
      exact hs hfill
    rw [content, cells_normalise h, content_rightpad, join_eq_some, getElem?_trimFill hne,
      getElem?_fillGaps (.inl rfl) hs, content, join_eq_some]

theorem solid_normalise : path.normalise.Solid := by
  by_cases h : path.size = 0
  · rw [normalise, if_pos h]
    intro k hk _
    omega
  · intro k hk hinline
    have hcells := cells_normalise h
    rw [lt_size_iff] at hk
    -- either something is stored there or behind, or the extension exists: then all inline cells are used
    have hlt : k < (trimFill (fillGaps Symbol.empty path.cells)).length := by
      rcases hk with ⟨j, hkj, hj⟩ | ⟨htail, -⟩
      · rw [content, hcells, content_rightpad] at hj
        by_contra hle
        rw [getElem?_eq_none (by omega)] at hj
        cases hj
      · rw [hcells, length_rightpad] at htail
        omega
    rw [content, hcells, content_rightpad, getElem?_eq_getElem hlt]
    have hmem : (trimFill (fillGaps Symbol.empty path.cells))[k] ∈ (fillGaps Symbol.empty path.cells).1 :=
      mem_of_mem_take (getElem_mem hlt)
    exact fillGaps_isSome _ _ _ hmem

end PathArray

end Lumiera.Lib
