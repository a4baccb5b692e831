import Lumiera.Lib.PathArrayNormalise
import Mathlib.Data.List.Lex
import Mathlib.Data.Nat.Find

/-! # UI coordinates

`UICoord` describes a location within the UI by the names of the components on the path down to it:
first the window, then perspective, panel, view and tab, and behind these further path components. A
coordinate specification may be incomplete and contain wildcards. The functions of its builder
manipulate a specification, which is normalised only when the builder is done. -/

namespace Lumiera.Stage.Interact

open List

open Lib (Literal PathArray Symbol.any Symbol.empty Symbol.bottom isnil)

/-- A path through the structure of the UI. -/
abbrev UICoord : Type := PathArray 8

/-- The window spec to refer to the current window. -/
def uicCurrentWindow : String := "currentWindow"

/-- The window spec to refer to the first window. -/
def uicFirstWindow : String := "firstWindow"

/-- Indicates that a component is elided, or existentially quantified. -/
def uicElided : String := "."

/-- The index of the window within the path. -/
def uicWindow : Nat := 0

/-- The part of a literal which is relevant for comparison: at most 1000 characters. Null is the
same as empty. -/
def relevant (l : Literal) : List UInt8 := (l.getD "").toUTF8.data.toList.take 1000

/-- `Literal::operator==` -/
def sameLiteral (l r : Literal) : Bool := relevant l = relevant r

namespace UICoord

/-! ## Queries -/

/-- The window component, empty if there is none. -/
def getWindow (uic : UICoord) : String := (uic.content uicWindow).getD Symbol.empty

/-- The component at an index is given and it is not a wildcard. -/
def isPresent (uic : UICoord) (idx : Nat) : Bool :=
  !isnil (uic.content idx) && uic.content idx != some Symbol.any

/-- The path starts with a window. -/
def isComplete (uic : UICoord) : Bool := !uic.isEmpty && !isnil (some uic.getWindow)

/-- The path starts with a window and has no wildcards. -/
def isExplicit (uic : UICoord) : Bool := uic.isComplete && !uic.elements.contains (some Symbol.any)

/-! ## The builder -/

/-- Split a sequence of elements at the delimiter `/`. Behind the last delimiter there is no element
when nothing follows there. -/
def splitElements (newContent : String) : List String :=
  if newContent = "" then []
  else if newContent.toList.contains '/' then
    (if ((newContent.toList.splitOn '/').map String.ofList).getLast? = some "" then
      ((newContent.toList.splitOn '/').map String.ofList).dropLast
    else (newContent.toList.splitOn '/').map String.ofList)
  else [newContent]

/-- Replace the path from the given index on; whatever remains behind is cleared. -/
def setTailSequence (uic : UICoord) (idx : Nat) (pathElms : List String) : UICoord :=
  let placed := (uic.expandPosition (idx + pathElms.length)).writeFrom idx (pathElms.map some)
  placed.writeFrom (idx + pathElms.length) (List.replicate (placed.size - (idx + pathElms.length)) none)

/-- Root the path within the given window. -/
def window (uic : UICoord) (windowID : Literal) : UICoord := uic.setAt uicWindow windowID

/-- Append further components at the end. -/
def append (uic : UICoord) (elm : Literal) : UICoord :=
  if isnil elm then uic else uic.setTailSequence uic.size (splitElements (elm.getD ""))

/-! ## Components which are present -/

variable {uic uic' : UICoord} {i : Nat}

theorem isPresent_iff : uic.isPresent i = true ↔ ∃ s, ¬PathArray.IsFill s ∧ uic.content i = some s := by
  unfold isPresent PathArray.IsFill
  cases h : uic.content i with
  | none => simp [isnil]
  | some s => simp [isnil, Symbol.empty, Symbol.any]

theorem isSome_of_isPresent (h : uic.isPresent i = true) : (uic.content i).isSome = true := by
  obtain ⟨s, -, hs⟩ := isPresent_iff.mp h
  rw [hs]
  rfl

theorem isPresent_of_content {s : String} (hs : ¬PathArray.IsFill s) (h : uic.content i = some s) :
    uic.isPresent i = true :=
  isPresent_iff.mpr ⟨s, hs, h⟩

theorem content_normalise_of_isPresent (h : uic.isPresent i = true) : uic.normalise.content i = uic.content i := by
  obtain ⟨s, hs, hcontent⟩ := isPresent_iff.mp h
  rw [hcontent]
  exact (PathArray.content_normalise hs).mpr hcontent

/-! ## No holes -/

theorem content_setTailSequence (elms : List String) (k : Nat) :
    (uic.setTailSequence uic.size elms).content k =
    if k < uic.size then uic.content k else (elms.map some)[k - uic.size]?.join := by
  unfold setTailSequence
  simp only [PathArray.content_writeFrom, PathArray.content_expandPosition, length_replicate,
    length_map]
  split_ifs with hcleared hsize hplaced hplaced hsize
  · omega
  · rw [getElem?_replicate, getElem?_eq_none (by rw [length_map]; omega)]
    split_ifs <;> rfl
  · omega
  · rfl
  · rfl
  · -- neither placed nor cleared: there is nothing
    rw [getElem?_eq_none (l := elms.map some) (by rw [length_map]; omega), Option.join_none,
      ← Option.not_isSome_iff_eq_none]
    intro hsome
    have hlt : k < uic.size := PathArray.lt_size_of_content hsome
    omega

theorem length_setTailSequence (elms : List String) : (uic.setTailSequence uic.size elms).cells.length =
    (uic.expandPosition (uic.size + elms.length)).cells.length := by
  have hcells : 8 ≤ uic.cells.length := uic.chunk_size_le
  have hexpanded : uic.size + elms.length ≤ (uic.expandPosition (uic.size + elms.length)).cells.length := by
    rw [PathArray.length_expandPosition]
    split_ifs <;> omega
  have hplaced : ((uic.expandPosition (uic.size + elms.length)).writeFrom uic.size
      (elms.map some)).cells.length =
      (uic.expandPosition (uic.size + elms.length)).cells.length :=
    PathArray.length_writeFrom _ _ (by rwa [length_map])
  unfold setTailSequence
  rw [PathArray.length_writeFrom, hplaced]
  have hsize : ((uic.expandPosition (uic.size + elms.length)).writeFrom uic.size (elms.map some)).size ≤ _ :=
    PathArray.size_le_length
  rw [length_replicate]
  omega

theorem solid_setTailSequence (h : uic.Solid) (elms : List String) : (uic.setTailSequence uic.size elms).Solid := by
  intro k hk hinline
  have hcontent : ∀ j, (uic.setTailSequence uic.size elms).content j = _ := content_setTailSequence elms
  rw [hcontent]
  split_ifs with hlt
  · exact h k hlt hinline
  · have hplaced : k - uic.size < elms.length := by
      by_contra hge
      rcases PathArray.lt_size_iff.mp hk with ⟨j, hkj, hj⟩ | ⟨htail, -⟩
      · rw [hcontent, if_neg (by omega), getElem?_eq_none (by rw [length_map]; omega)] at hj
        cases hj
      · -- an extension is there only if it was before or if the elements do not fit into the inline array
        rw [length_setTailSequence, PathArray.length_expandPosition] at htail
        by_cases htail' : 8 < uic.cells.length
        · have hsize : uic.size = uic.cells.length := PathArray.size_eq_length htail'
          omega
        · split_ifs at htail <;> omega
    rw [getElem?_map, getElem?_eq_getElem hplaced]
    rfl

theorem solid_append (h : uic.Solid) (elm : Literal) : (uic.append elm).Solid := by
  unfold append
  split_ifs
  · exact h
  · exact solid_setTailSequence h _

/-! ## The order of UI coordinates

A UI coordinate is *extended below* another one when it reaches further down: all elements of the
parent agree with it, where gaps and wildcards of the parent agree with anything. On normalised
coordinates this is a strict partial order, and it goes along with the lexicographic comparison. -/

/-- An element agrees with the one of the parent. -/
def agrees (elm parent : Literal) : Bool :=
  sameLiteral elm parent || sameLiteral (some Symbol.any) parent || isnil parent

/-- The loop which compares the elements from an index on, as long as they agree; the number of elements to
be compared is given. Access to an element may fail. -/
def agreesUpTo (uic parent : UICoord) : Nat → Nat → Option Nat
  | 0, idx => some idx
  | rest + 1, idx => do
      let elm ← uic.getPosition idx
      let parentElm ← parent.getPosition idx
      if agrees elm parentElm then uic.agreesUpTo parent rest (idx + 1) else some idx

/-- `UICoord::isExtendedBelow` -/
def isExtendedBelow (uic parent : UICoord) : Option Bool :=
  if parent.size ≥ uic.size then some false
  else (uic.agreesUpTo parent parent.size 0).map fun idx => idx = parent.size

/-! ## What is compared -/

variable {uic parent grand : UICoord} {elm elm' : Literal}

theorem agreesUpTo_spec (huic : uic.Solid) (hparent : parent.Solid) (rest : Nat) {idx : Nat}
    (hrest : idx + rest = parent.size) (hsize : parent.size < uic.size) :
    ∃ stop, uic.agreesUpTo parent rest idx = some stop ∧
      (stop = parent.size ↔ ∀ i, idx ≤ i → i < parent.size → agrees (uic.content i) (parent.content i)) := by
  induction rest generalizing idx with
  | zero => exact ⟨idx, rfl, iff_of_true hrest fun i hi hlt => by omega⟩
  | succ rest ih =>
    rw [agreesUpTo, huic.getPosition (by omega), hparent.getPosition (by omega)]
    by_cases hagrees : agrees (uic.content idx) (parent.content idx) = true
    · have hnext : idx + 1 + rest = parent.size := by omega
      obtain ⟨stop, hstop, hiff⟩ := ih hnext
      refine ⟨stop, ?_, hiff.trans ⟨fun h i hi hlt => ?_, fun h i hi hlt => h i (by omega) hlt⟩⟩
      · exact (if_pos hagrees).trans hstop
      · rcases Nat.eq_or_lt_of_le hi with rfl | hi
        · exact hagrees
        · exact h i hi hlt
    · refine ⟨idx, if_neg hagrees, iff_of_false (by omega) fun h => ?_⟩
      exact hagrees (h idx le_rfl (by omega))

/-- What it means to be extended below: to be longer, and to agree with each element of the parent. -/
theorem isExtendedBelow_iff (huic : uic.Solid) (hparent : parent.Solid) : uic.isExtendedBelow parent = some true ↔
    parent.size < uic.size ∧ ∀ i < parent.size, agrees (uic.content i) (parent.content i) = true := by
  unfold isExtendedBelow
  split_ifs with hsize
  · exact iff_of_false (by simp) fun h => by omega
  · obtain ⟨stop, hstop, hiff⟩ := agreesUpTo_spec huic hparent parent.size (Nat.zero_add _) (by omega)
    rw [hstop, Option.map_some, Option.some.injEq, decide_eq_true_iff, hiff, and_iff_right (by omega)]
    exact ⟨fun h i hi => h i (Nat.zero_le i) hi, fun h i _ hi => h i hi⟩

theorem isSome_isExtendedBelow (huic : uic.Solid) (hparent : parent.Solid) :
    (uic.isExtendedBelow parent).isSome = true := by
  unfold isExtendedBelow
  split_ifs with hsize
  · rfl
  · obtain ⟨stop, hstop, -⟩ := agreesUpTo_spec huic hparent parent.size (Nat.zero_add _) (by omega)
    rw [hstop]
    rfl

/-! ## A strict partial order -/

theorem isnil_iff_relevant : isnil elm = true ↔ relevant elm = [] := by
  unfold isnil relevant
  rw [decide_eq_true_iff]
  constructor
  · intro h
    rw [h]
    rfl
  · intro h
    rw [take_eq_nil_iff] at h
    rcases h with h | h
    · cases h
    · have hsize : (elm.getD "").toUTF8.size = 0 := by
        rw [ByteArray.size, ← Array.length_toList, h]
        rfl
      exact String.utf8ByteSize_eq_zero_iff.mp hsize

theorem agrees_iff : agrees elm elm' = true ↔
    relevant elm = relevant elm' ∨ relevant elm' = relevant (some Symbol.any) ∨ relevant elm' = [] := by
  unfold agrees sameLiteral
  rw [Bool.or_eq_true, Bool.or_eq_true, decide_eq_true_iff, decide_eq_true_iff, isnil_iff_relevant, or_assoc,
    eq_comm (a := relevant (some Symbol.any))]

theorem agrees_trans {elm'' : Literal} (h : agrees elm elm' = true) (h' : agrees elm' elm'' = true) :
    agrees elm elm'' = true := by
  rw [agrees_iff] at *
  rcases h' with hsame' | hwild'
  · rw [← hsame']
    exact h.imp_left id
  · exact .inr hwild'

/-- Nothing is extended below itself. -/
theorem isExtendedBelow_irrefl (huic : uic.Solid) : uic.isExtendedBelow uic ≠ some true := by
  rw [ne_eq, isExtendedBelow_iff huic huic]
  omega

/-- To be extended below is transitive. -/
theorem isExtendedBelow_trans (huic : uic.Solid) (hparent : parent.Solid) (hgrand : grand.Solid)
    (h : uic.isExtendedBelow parent = some true) (h' : parent.isExtendedBelow grand = some true) :
    uic.isExtendedBelow grand = some true := by
  rw [isExtendedBelow_iff huic hparent] at h
  rw [isExtendedBelow_iff hparent hgrand] at h'
  rw [isExtendedBelow_iff huic hgrand]
  exact ⟨h'.1.trans h.1, fun i hi => agrees_trans (h.2 i (hi.trans h'.1)) (h'.2 i hi)⟩

/-! ## The lexicographic comparison -/

/-- The rank of an element: by its characters, yet below of all others if it is a gap or wildcard. -/
def elmRank (elm : Literal) : List UInt8 :=
  if relevant elm = relevant (some Symbol.any) then [] else relevant elm

/-- The ranks of all elements. -/
def ranks (uic : UICoord) : List (List UInt8) := (List.range uic.size).map fun i => elmRank (uic.content i)

theorem length_ranks : uic.ranks.length = uic.size := by
  rw [ranks, length_map, length_range]

theorem getElem_ranks {i : Nat} (h : i < uic.ranks.length) : uic.ranks[i] = elmRank (uic.content i) := by
  simp only [ranks, getElem_map, getElem_range]

theorem elmRank_of_agrees (h : agrees elm elm' = true) : elmRank elm' = elmRank elm ∨ elmRank elm' < elmRank elm := by
  have hwild : elmRank elm' = [] → elmRank elm' = elmRank elm ∨ elmRank elm' < elmRank elm := by
    intro hnil
    rw [hnil]
    rcases hrank : elmRank elm with - | ⟨c, cs⟩
    · exact .inl rfl
    · exact .inr (nil_lt_cons c cs)
  rcases agrees_iff.mp h with hsame | hany | hnil
  · unfold elmRank
    rw [hsame]
    exact .inl rfl
  · exact hwild (if_pos hany)
  · refine hwild ?_
    unfold elmRank
    rw [hnil]
    split_ifs <;> rfl

/-- A coordinate which is extended below another one comes behind it in lexicographic order. -/
theorem ranks_lt_of_isExtendedBelow (huic : uic.Solid) (hparent : parent.Solid)
    (h : uic.isExtendedBelow parent = some true) : parent.ranks < uic.ranks := by
  obtain ⟨hsize, hagrees⟩ := (isExtendedBelow_iff huic hparent).mp h
  rw [List.lt_iff_exists]
  by_cases hall : ∀ i < parent.size, elmRank (parent.content i) = elmRank (uic.content i)
  · refine .inl ⟨ext_getElem ?_ fun i hi hi' => ?_, ?_⟩
    · rw [length_take, length_ranks, length_ranks]
      omega
    · rw [getElem_take, getElem_ranks, getElem_ranks]
      rw [length_ranks] at hi
      exact hall i hi
    · rwa [length_ranks, length_ranks]
  · -- the first element where the ranks differ decides
    push Not at hall
    obtain ⟨hlt, hne⟩ := Nat.find_spec hall
    have hbefore : ∀ j < Nat.find hall, elmRank (parent.content j) = elmRank (uic.content j) := by
      intro j hj
      by_contra hdiffer
      exact Nat.find_min hall hj ⟨by omega, hdiffer⟩
    refine .inr ⟨Nat.find hall, by rwa [length_ranks], by rw [length_ranks]; omega, fun j hj => ?_, ?_⟩
    · rw [getElem_ranks, getElem_ranks]
      exact hbefore j hj
    · rw [getElem_ranks, getElem_ranks]
      exact (elmRank_of_agrees (hagrees _ hlt)).resolve_left hne

/-! ## Normalised coordinates -/

/-- Coordinates as they result from normalising. -/
def Normalised (uic : UICoord) : Prop := ∃ raw : UICoord, uic = raw.normalise

theorem Normalised.solid (h : Normalised uic) : uic.Solid := by
  obtain ⟨raw, rfl⟩ := h
  exact PathArray.solid_normalise

/-- **A strict order which goes along with the lexicographic one**: the comparison does not fail, no
coordinate is extended below itself, and this relation is transitive. -/
structure StrictlyOrdered (coords : UICoord → Prop) : Prop where
  total : ∀ uic parent, coords uic → coords parent → (uic.isExtendedBelow parent).isSome = true
  irrefl : ∀ uic, coords uic → uic.isExtendedBelow uic ≠ some true
  trans : ∀ uic parent grand, coords uic → coords parent → coords grand →
    uic.isExtendedBelow parent = some true → parent.isExtendedBelow grand = some true →
    uic.isExtendedBelow grand = some true
  refined : ∀ uic parent, coords uic → coords parent → uic.isExtendedBelow parent = some true →
    parent.ranks < uic.ranks

theorem strictlyOrdered_normalised : StrictlyOrdered Normalised where
  total _ _ huic hparent := isSome_isExtendedBelow huic.solid hparent.solid
  irrefl _ huic := isExtendedBelow_irrefl huic.solid
  trans _ _ _ huic hparent hgrand := isExtendedBelow_trans huic.solid hparent.solid hgrand.solid
  refined _ _ huic hparent := ranks_lt_of_isExtendedBelow huic.solid hparent.solid

/-- **Normalising establishes the contract and is idempotent if and only if** there is not just a gap before
wildcards; and normalised coordinates are strictly ordered in any case. -/
theorem normalises_iff {chunk_size : Nat} (path : PathArray chunk_size) :
    (path.Normalises ↔ ¬ path.GapBeforeWildcards) ∧ StrictlyOrdered Normalised :=
  ⟨PathArray.normalises_iff_not_gap path, strictlyOrdered_normalised⟩

/-- A gap before a wildcard. -/
def gapAndWildcard : UICoord := ⟨.none :: some "*" :: List.replicate 6 .none, by decide⟩

/-- The wildcard is trimmed, and the gap in front of it remains as an empty element; it vanishes when
normalising again. -/
theorem not_normalises_gap : gapAndWildcard.normalise.size = 1 ∧
    gapAndWildcard.normalise.content 0 = some Symbol.empty ∧
    gapAndWildcard.normalise.normalise.size = 0 ∧ ¬ gapAndWildcard.Normalises := by
  refine ⟨by decide, by decide, by decide, fun h => ?_⟩
  have hsize := congrArg PathArray.size h.idempotent
  revert hsize
  decide

end UICoord

end Lumiera.Stage.Interact
