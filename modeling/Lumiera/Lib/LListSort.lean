import Lumiera.Base.LinkedTree
import Lumiera.Lib.LList

/-! # Sorting an intrusive list (`lib/llist.h`)

`llist_sort` deals out the nodes of the list to two heads on the stack, sorts both lists likewise, and
merges them back into the original ring. The frames of the recursion have heads of their own; in between,
the nodes are in three disjoint rings. -/

namespace Lumiera.Lib.LList

universe u

open Links SearchTree

/-- The nodes in memory: those of the caller, and two heads in each frame on the stack. -/
inductive Node (ι : Type u)
  | item (x : ι)
  | left (frame : ℕ)
  | right (frame : ℕ)
  deriving DecidableEq

variable {ι : Type u}

/-- The comparison function is written for the nodes of the caller, and reads what these contain. -/
def compare (cmp : ι → ι → ℤ) : Node ι → Node ι → Option ℤ
  | .item a, .item b => some (cmp a b)
  | _, _ => none

section Code

variable [DecidableEq ι]

/-- Initialise a new list (`llist_init`). -/
def init (h : Links ι) (self : ι) : Links ι :=
  let h := setPrev h self self
  setNext h self self

/-- Check for a list of a single node at most (`llist_is_single`). -/
def isSingle (h : Links ι) (self : ι) : Bool := h.next (h.next self) = self

/-- The nodes are dealt out (the first loop of `llist_sort`). -/
def deal (self left right : Node ι) : ℕ → UInt32 → Links (Node ι) → Option (Links (Node ι))
  | 0, _, _ => none
  | rounds + 1, n, h =>
    if isEmpty h self then some h
    else
      let head := h.next self
      let n := n + 1
      deal self left right rounds n (insertPrev h (if n &&& 1 ≠ 0 then left else right) head)

/-- The nodes are merged back, up to the end of either list (the second loop of `llist_sort`). -/
def mergeBack (cmp : ι → ι → ℤ) (self left right : Node ι) : ℕ → Links (Node ι) → Option (Links (Node ι))
  | 0, _ => none
  | rounds + 1, h =>
    if !isEmpty h left && !isEmpty h right then
      (compare cmp (h.next left) (h.next right)).bind fun order =>
        mergeBack cmp self left right rounds
          (insertPrev h self (if order < 0 then h.next left else h.next right))
    else some h

/-- `llist_sort`, in a frame on the stack; the rounds of the loops and the depth are limited. -/
def sort (cmp : ι → ι → ℤ) : ℕ → ℕ → Links (Node ι) → Node ι → Option (Links (Node ι) × Node ι)
  | 0, _, _, _ => none
  | rounds + 1, frame, h, self => do
    let left := .left frame
    let right := .right frame
    let h := init h left
    let h := init h right
    if isSingle h self then some (h, self)
    else
      let h ← deal self left right rounds 0 h
      let (h, _) ← sort cmp rounds (frame + 1) h left
      let (h, _) ← sort cmp rounds (frame + 1) h right
      let h ← mergeBack cmp self left right rounds h
      let h := if !isEmpty h left then insertlistPrev h self left else h
      let h := if !isEmpty h right then insertlistPrev h self right else h
      some (h, self)

end Code

/-! ## Rings -/

section Rings

variable [DecidableEq ι] {h : Links ι} {self other x : ι} {A B : List ι} {F : Multiset (Cycle ι)}

/-- A node which belongs to no ring gets a ring of its own. -/
theorem init_holds (hold : h.Holds F) (hself : self ∉ nodes F) : (init h self).Holds (ring [self] + F) := by
  have hkeep : (init h self).Holds F := by
    apply hold.congr
    · intro y hy
      have hne : y ≠ self := fun heq => hself (heq ▸ hy)
      simp [init, hne]
    · intro y hy
      have hne : y ≠ self := fun heq => hself (heq ▸ hy)
      simp [init, hne]
  refine holds_ring_add.mpr ⟨?_, List.nodup_singleton self, ?_, hkeep⟩
  · simp [init, Edge]
  · simpa using hself

theorem isEmpty_eq (hold : h.Holds (ring (self :: A) + F)) : isEmpty h self = A.isEmpty := by
  cases A with
  | nil =>
    have hnext : h.next self = self := (holds_ring_add.mp hold).1.1
    simp [isEmpty, hnext]
  | cons x A => simp [isEmpty, hold.next_ne]

omit [DecidableEq ι] in
theorem next_eq (hold : h.Holds (ring (self :: x :: A) + F)) : h.next self = x :=
  (holds_ring_add.mp hold).1.1.1

theorem isSingle_eq (hold : h.Holds (ring (self :: A) + F)) : isSingle h self = decide (A.length ≤ 1) := by
  obtain ⟨hpath, hnodup, -, -⟩ := holds_ring_add.mp hold
  cases A with
  | nil =>
    have hnext : h.next self = self := hpath.1
    simp [isSingle, hnext]
  | cons x A =>
    have hx : h.next self = x := next_eq hold
    cases A with
    | nil =>
      have hself : h.next x = self := hpath.2.1
      simp [isSingle, hx, hself]
    | cons y A =>
      have hy : h.next x = y := hpath.2.1.1
      have hne : y ≠ self := by
        rintro rfl
        exact (List.nodup_cons.mp hnodup).1 (by simp)
      simp [isSingle, hx, hy, hne]

/-- The first node of a list becomes the last one of another list. -/
theorem insertPrev_first (hold : h.Holds (ring (self :: x :: A) + (ring (other :: B) + F))) :
    (insertPrev h other x).Holds (ring (self :: A) + (ring (other :: (B ++ [x])) + F)) := by
  have hrotated : ring (self :: x :: A) = ring (x :: (A ++ [self])) := ring_append_comm [self] (x :: A)
  have hne : other ≠ x := by
    obtain ⟨-, -, hnot, -⟩ := holds_ring_add.mp hold
    rintro rfl
    exact hnot other (by simp) mem_nodes_ring
  rw [hrotated] at hold
  have hinserted := insertPrev_holds (A := B) (F := ring (self :: A) + F) hne hold (by
    rw [ring_append_comm A [self], List.singleton_append, add_left_comm])
  have hlast : ring (x :: other :: B) = ring (other :: (B ++ [x])) := ring_append_comm [x] (other :: B)
  rw [hlast, add_left_comm] at hinserted
  exact hinserted

/-- The content of a list goes to the end of another one, unless it is empty anyway. -/
theorem insertlistPrev_rest (hold : h.Holds (ring (other :: B) + (ring (self :: A) + F))) :
    (if !isEmpty h other then insertlistPrev h self other else h).Holds
      (ring [other] + (ring (self :: (A ++ B)) + F)) := by
  rw [isEmpty_eq hold]
  cases B with
  | nil => simpa using hold
  | cons y B =>
    rw [add_left_comm, ← add_assoc] at hold
    have hmoved := insertlistPrev_holds hold
    rw [add_assoc, add_left_comm] at hmoved
    exact hmoved

end Rings

/-! ## Dealing out -/

variable {cmp : ι → ι → ℤ} {A L R S : List ι}

/-- The nodes with the given contents. -/
def items (A : List ι) : List (Node ι) := A.map .item

@[simp] theorem items_nil : items ([] : List ι) = [] := rfl

@[simp] theorem items_cons (x : ι) (A : List ι) : items (x :: A) = .item x :: items A := rfl

@[simp] theorem items_append (A B : List ι) : items (A ++ B) = items A ++ items B := List.map_append

@[simp] theorem length_items (A : List ι) : (items A).length = A.length := List.length_map ..

/-- How the nodes are dealt out, beginning with the given count. -/
def dealt : UInt32 → List ι → List ι × List ι
  | _, [] => ([], [])
  | n, x :: A =>
    let rest := dealt (n + 1) A
    if (n + 1) &&& 1 ≠ 0 then (x :: rest.1, rest.2) else (rest.1, x :: rest.2)

theorem dealt_perm (n : UInt32) (A : List ι) : ((dealt n A).1 ++ (dealt n A).2).Perm A := by
  induction A generalizing n with
  | nil => exact .refl _
  | cons x A ih =>
    simp only [dealt]
    split
    · exact (ih (n + 1)).cons x
    · exact List.perm_middle.trans ((ih (n + 1)).cons x)

/-- Both lists are shorter than a list of two nodes at least. -/
theorem dealt_length (hlength : 2 ≤ A.length) :
    (dealt 0 A).1.length < A.length ∧ (dealt 0 A).2.length < A.length := by
  obtain ⟨x, y, A, rfl⟩ : ∃ x y B, A = x :: y :: B := by
    match A, hlength with
    | x :: y :: B, _ => exact ⟨x, y, B, rfl⟩
  have hlength := (dealt_perm 2 A).length_eq
  -- the first one goes to the left and the second one to the right
  have hdealt : dealt 0 (x :: y :: A) = (x :: (dealt 2 A).1, y :: (dealt 2 A).2) := rfl
  simp only [hdealt, List.length_cons, List.length_append] at hlength ⊢
  omega

variable [DecidableEq ι] {h : Links (Node ι)} {self left right : Node ι} {F : Multiset (Cycle (Node ι))}
  {rounds : ℕ}

/-- The first loop leaves the list empty. -/
theorem deal_holds {n : UInt32} (hrounds : A.length < rounds)
    (hold : h.Holds (ring (self :: items A) + (ring (left :: items L) + (ring (right :: items R) + F)))) :
    ∃ h', deal self left right rounds n h = some h' ∧
      h'.Holds (ring [self] + (ring (left :: items (L ++ (dealt n A).1)) +
        (ring (right :: items (R ++ (dealt n A).2)) + F))) := by
  induction rounds generalizing A L R n h with
  | zero => exact absurd hrounds (Nat.not_lt_zero _)
  | succ rounds ih =>
    simp only [deal, isEmpty_eq hold]
    cases A with
    | nil => exact ⟨h, rfl, by simpa [dealt] using hold⟩
    | cons x A =>
      have hrounds : A.length < rounds := Nat.lt_of_succ_lt_succ hrounds
      have hnext : h.next self = .item x := next_eq hold
      simp only [items_cons, List.isEmpty_cons, Bool.false_eq_true, if_false, hnext, dealt]
      split
      · have hinserted := insertPrev_first hold
        have hitems : items L ++ [.item x] = items (L ++ [x]) := by simp
        rw [hitems] at hinserted
        obtain ⟨h', hdeal, hold'⟩ := ih (n := n + 1) hrounds hinserted
        refine ⟨h', hdeal, ?_⟩
        simpa using hold'
      · rw [add_left_comm (ring (left :: items L))] at hold
        have hinserted := insertPrev_first hold
        have hitems : items R ++ [.item x] = items (R ++ [x]) := by simp
        rw [hitems, add_left_comm (ring (right :: _))] at hinserted
        obtain ⟨h', hdeal, hold'⟩ := ih (n := n + 1) hrounds hinserted
        refine ⟨h', hdeal, ?_⟩
        simpa using hold'

/-! ## Merging back -/

/-- The nodes are in order. -/
def InOrder (cmp : ι → ι → ℤ) (A : List ι) : Prop := A.Pairwise fun a b => cmp a b ≤ 0

omit [DecidableEq ι] in
theorem InOrder.merge {x y : ι} (hcmp : TotalOrder cmp) (hleft : InOrder cmp (S ++ x :: L))
    (hright : InOrder cmp (S ++ y :: R)) (hxy : cmp x y ≤ 0) :
    InOrder cmp (S ++ [x] ++ L) ∧ InOrder cmp (S ++ [x] ++ y :: R) := by
  refine ⟨by simpa using hleft, ?_⟩
  obtain ⟨hS, hyR, hcross⟩ := List.pairwise_append.mp hright
  obtain ⟨-, -, hcrossx⟩ := List.pairwise_append.mp hleft
  obtain ⟨hy, hR⟩ := List.pairwise_cons.mp hyR
  rw [List.append_assoc]
  refine List.pairwise_append.mpr ⟨hS, ?_, ?_⟩
  · refine List.pairwise_cons.mpr ⟨fun b hb => ?_, hyR⟩
    rcases List.mem_cons.mp hb with rfl | hb
    · exact hxy
    · exact hcmp.trans x y b hxy (hy b hb)
  · intro a ha b hb
    rcases List.mem_cons.mp hb with rfl | hb
    · exact hcrossx a ha b List.mem_cons_self
    · exact hcross a ha b hb

/-- The second loop leaves one of the lists empty, and the other one with nodes which go behind. -/
theorem mergeBack_holds (hcmp : TotalOrder cmp) (hrounds : L.length + R.length < rounds)
    (hleft : InOrder cmp (S ++ L)) (hright : InOrder cmp (S ++ R))
    (hold : h.Holds (ring (left :: items L) + (ring (right :: items R) + (ring (self :: items S) + F)))) :
    ∃ h' L' R' S', mergeBack cmp self left right rounds h = some h' ∧
      h'.Holds (ring (left :: items L') + (ring (right :: items R') + (ring (self :: items S') + F))) ∧
      (S' ++ L' ++ R').Perm (S ++ L ++ R) ∧ InOrder cmp (S' ++ L' ++ R') := by
  induction rounds generalizing L R S h with
  | zero => exact absurd hrounds (Nat.not_lt_zero _)
  | succ rounds ih =>
    have hold' := hold
    rw [add_left_comm] at hold'
    simp only [mergeBack, isEmpty_eq hold, isEmpty_eq hold']
    cases L with
    | nil =>
      refine ⟨h, [], R, S, rfl, hold, .refl _, ?_⟩
      simpa using hright
    | cons x L =>
      cases R with
      | nil =>
        refine ⟨h, x :: L, [], S, rfl, hold, .refl _, ?_⟩
        simpa using hleft
      | cons y R =>
        have hx : h.next left = .item x := next_eq hold
        have hy : h.next right = .item y := next_eq hold'
        simp only [List.length_cons] at hrounds
        simp only [items_cons, List.isEmpty_cons, Bool.not_false, Bool.and_self, if_true, hx, hy, compare,
          Option.bind_some]
        split_ifs with horder
        · obtain ⟨hL, hR⟩ := hleft.merge hcmp hright (le_of_lt horder)
          rw [add_left_comm (ring (right :: _))] at hold
          have hinserted := insertPrev_first hold
          have hitems : items S ++ [.item x] = items (S ++ [x]) := by simp
          rw [hitems, add_left_comm (ring (self :: _))] at hinserted
          obtain ⟨h', L', R', S', hmerge, hholds, hperm, hin⟩ :=
            ih (R := y :: R) (by simp only [List.length_cons]; omega) hL hR hinserted
          refine ⟨h', L', R', S', hmerge, hholds, hperm.trans ?_, hin⟩
          simp
        · have hyx : cmp y x ≤ 0 := by
            have := hcmp.swap x y
            omega
          obtain ⟨hR, hL⟩ := hright.merge hcmp hleft hyx
          rw [add_left_comm (ring (left :: _))] at hold'
          have hinserted := insertPrev_first hold'
          have hitems : items S ++ [.item y] = items (S ++ [y]) := by simp
          rw [hitems, add_left_comm (ring (self :: _)), add_left_comm (ring (right :: _))] at hinserted
          obtain ⟨h', L', R', S', hmerge, hholds, hperm, hin⟩ :=
            ih (L := x :: L) (by simp only [List.length_cons]; omega) hL hR hinserted
          refine ⟨h', L', R', S', hmerge, hholds, hperm.trans ?_, hin⟩
          simp only [List.append_assoc]
          exact (@List.perm_middle _ y (x :: L) R).symm.append_left S

/-! ## Sorting -/

/-- The node is not in a frame of the given depth, or of a greater one. -/
def Below (frame : ℕ) : Node ι → Prop
  | .item _ => True
  | .left k | .right k => k < frame

omit [DecidableEq ι] in
theorem Below.mono {k frame : ℕ} {x : Node ι} (hle : k ≤ frame) (h : Below k x) : Below frame x := by
  cases x with
  | item x => trivial
  | left j => exact Nat.lt_of_lt_of_le h hle
  | right j => exact Nat.lt_of_lt_of_le h hle

omit [DecidableEq ι] in
theorem below_ring {frame : ℕ} (hself : Below frame self) (hF : ∀ x ∈ nodes F, Below frame x) :
    ∀ x ∈ nodes (ring (self :: items A) + F), Below frame x := by
  intro x hx
  rcases mem_nodes_ring_add.mp hx with hx | hx
  · rcases List.mem_cons.mp hx with rfl | hx
    · exact hself
    · obtain ⟨y, -, rfl⟩ := List.mem_map.mp hx
      trivial
  · exact hF x hx

/-- Sorting in a frame: the rings of the other frames are not affected. -/
theorem sort_holds (hcmp : TotalOrder cmp) {frame : ℕ} (hrounds : A.length + 1 < rounds)
    (hself : Below frame self) (hF : ∀ x ∈ nodes F, Below frame x)
    (hold : h.Holds (ring (self :: items A) + F)) :
    ∃ h' sorted, sort cmp rounds frame h self = some (h', self) ∧ sorted.Perm A ∧ InOrder cmp sorted ∧
      h'.Holds (ring (self :: items sorted) + F) := by
  induction rounds generalizing A frame h self F with
  | zero => exact absurd hrounds (Nat.not_lt_zero _)
  | succ rounds ih =>
    have hbelow := below_ring (A := A) hself hF
    -- the heads on the stack
    have hleft : (init h (.left frame)).Holds _ :=
      init_holds hold fun hmem => absurd (hbelow _ hmem) (Nat.lt_irrefl _)
    have hright : (init (init h (.left frame)) (.right frame)).Holds _ := init_holds hleft (by
      rw [mem_nodes_ring_add]
      rintro (hmem | hmem)
      · simp at hmem
      · exact absurd (hbelow _ hmem) (Nat.lt_irrefl _))
    simp only [sort]
    generalize init (init h (.left frame)) (.right frame) = h at hright
    rw [add_left_comm (ring [Node.left frame]), add_left_comm, add_left_comm (ring [Node.right frame])] at hright
    rw [isSingle_eq hright, length_items]
    by_cases hlength : A.length ≤ 1
    · refine ⟨h, A, by simp [hlength], .refl A, ?_, ?_⟩
      · -- there is no pair of nodes
        match A, hlength with
        | [], _ => exact List.Pairwise.nil
        | [x], _ => exact List.pairwise_singleton _ x
      · rw [add_left_comm, add_left_comm (ring (self :: _))] at hright
        exact hright.of_add.of_add
    obtain ⟨hleftlt, hrightlt⟩ := dealt_length (A := A) (by omega)
    obtain ⟨h₁, hdeal, hold₁⟩ := deal_holds (L := []) (R := []) (n := 0)
      (show A.length < rounds by omega) hright
    have hdealt := dealt_perm 0 A
    rw [List.nil_append, List.nil_append] at hold₁
    have hself' : Below (frame + 1) self := hself.mono (Nat.le_succ frame)
    have hF' : ∀ x ∈ nodes F, Below (frame + 1) x := fun x hx => (hF x hx).mono (Nat.le_succ frame)
    have hleft' : Below (frame + 1) (.left frame : Node ι) := Nat.lt_succ_self frame
    have hright' : Below (frame + 1) (.right frame : Node ι) := Nat.lt_succ_self frame
    -- the list on the left, and then the list on the right
    rw [add_left_comm] at hold₁
    obtain ⟨h₂, L', hsortL, hpermL, hinL, hold₂⟩ := ih (by omega) hleft'
      (below_ring (A := []) hself' (below_ring hright' hF')) hold₁
    rw [add_left_comm (ring (self :: _)), add_left_comm] at hold₂
    obtain ⟨h₃, R', hsortR, hpermR, hinR, hold₃⟩ := ih (by omega) hright'
      (below_ring hleft' (below_ring (A := []) hself' hF')) hold₂
    rw [add_left_comm] at hold₃
    have hlengths : L'.length + R'.length < rounds := by
      have hlengthL := hpermL.length_eq
      have hlengthR := hpermR.length_eq
      have hlength := hdealt.length_eq
      rw [List.length_append] at hlength
      omega
    obtain ⟨h₄, L'', R'', S, hmerge, hold₄, hperm, hin⟩ := mergeBack_holds (S := []) hcmp hlengths hinL hinR hold₃
    -- what remains goes to the end
    rw [add_left_comm (ring (Node.right frame :: _))] at hold₄
    have hold₅ := insertlistPrev_rest hold₄
    rw [← items_append, add_left_comm (ring (self :: _)), add_left_comm, add_left_comm (ring [_])] at hold₅
    have hold₆ := insertlistPrev_rest hold₅
    rw [← items_append, add_left_comm (ring (self :: _))] at hold₆
    refine ⟨_, S ++ L'' ++ R'', ?_, ?_, hin, hold₆.of_add.of_add⟩
    · simp only [hlength, decide_false, Bool.false_eq_true, if_false, hdeal, Option.bind_eq_bind, Option.bind_some,
        hsortL, hsortR, hmerge]
    · exact hperm.trans ((hpermL.append hpermR).trans hdealt)

/-- **`llist_sort`** terminates for each comparison function which is a total order of what the nodes contain
(where different nodes can be equivalent), and leaves a ring with the same root and the same nodes, in order.
Other rings are not affected. -/
theorem llist_sort_sorts (hcmp : TotalOrder cmp) {root : ι} {F : Multiset (Cycle (Node ι))}
    (hold : h.Holds (ring (items (root :: A)) + F)) (hcaller : ∀ x ∈ nodes F, Below 0 x) :
    ∃ limit, ∀ rounds ≥ limit, ∃ h' sorted, sort cmp rounds 0 h (.item root) = some (h', .item root) ∧
      h'.Holds (ring (items (root :: sorted)) + F) ∧ sorted.Perm A ∧ InOrder cmp sorted := by
  refine ⟨A.length + 2, fun rounds hrounds => ?_⟩
  have hroot : Below 0 (Node.item root) := trivial
  obtain ⟨h', sorted, hsort, hperm, hin, hold'⟩ := sort_holds hcmp hrounds hroot hcaller hold
  exact ⟨h', sorted, hsort, hold', hperm, hin⟩

/-! ## Searching a sorted list -/

/-- The search ends too early for no node when those behind a bigger one do not match either. -/
theorem sfindFrom_eq {ν : Type u} [DecidableEq ν] {h : Links ν} {matching : ν → ℤ} {self x : ν} {A : List ν}
    (hpath : h.Path x A self) (hself : self ∉ A) (hsorted : A.Pairwise fun a b => 0 < matching a → matching b ≠ 0)
    {rounds : ℕ} (hrounds : A.length < rounds) :
    sfindFrom matching self h rounds (h.next x) = some (A.find? fun y => matching y = 0) := by
  induction A generalizing x rounds with
  | nil =>
    obtain ⟨rounds, rfl⟩ := Nat.exists_eq_succ_of_ne_zero (Nat.pos_iff_ne_zero.mp hrounds)
    rw [sfindFrom, if_pos hpath.1]
    rfl
  | cons y A ih =>
    obtain ⟨rounds, rfl⟩ := Nat.exists_eq_succ_of_ne_zero (Nat.ne_of_gt (Nat.zero_lt_of_lt hrounds))
    obtain ⟨hne, hself⟩ := List.ne_and_not_mem_of_not_mem_cons hself
    obtain ⟨hbehind, hsorted⟩ := List.pairwise_cons.mp hsorted
    rw [sfindFrom, hpath.1.1, if_neg hne.symm]
    by_cases hmatch : matching y = 0
    · rw [if_pos hmatch, List.find?_cons_of_pos (by simpa using hmatch)]
    · rw [if_neg hmatch, List.find?_cons_of_neg (by simpa using hmatch)]
      by_cases hbigger : matching y > 0
      · -- the loop ends here, and nothing behind matches
        rw [if_pos hbigger]
        refine congrArg some (List.find?_eq_none.mpr fun z hz => ?_).symm
        simpa using hbehind z hz hbigger
      · rw [if_neg hbigger]
        exact ih hpath.2 hself hsorted (Nat.lt_of_succ_lt_succ hrounds)

/-- **A sorted list can be searched**: after `llist_sort`, `llist_sfind` finds a node equivalent to the
template if there is any in the list, and otherwise nothing. -/
theorem llist_sfind_sorted (hcmp : TotalOrder cmp) {root : ι} {F : Multiset (Cycle (Node ι))}
    (hold : h.Holds (ring (items (root :: A)) + F)) (hcaller : ∀ x ∈ nodes F, Below 0 x) : ∃ limit, ∀ rounds ≥ limit,
    ∃ h', sort cmp rounds 0 h (.item root) = some (h', .item root) ∧ ∀ (templ : ι) (matching : Node ι → ℤ),
    (∀ x, matching (.item x) = cmp x templ) → ∃ found, sfind matching rounds h' (.item root) = some found ∧
    (∀ node, found = some node → ∃ x ∈ A, node = .item x ∧ cmp x templ = 0) ∧
    (found = none ↔ ∀ x ∈ A, cmp x templ ≠ 0) := by
  refine ⟨A.length + 2, fun rounds hrounds => ?_⟩
  have hroot : Below 0 (Node.item root) := trivial
  obtain ⟨h', sorted, hsort, hperm, hin, hold'⟩ := sort_holds hcmp hrounds hroot hcaller hold
  refine ⟨h', hsort, fun templ matching hmatch => ?_⟩
  obtain ⟨hpath, hnodup, -, -⟩ := holds_ring_add.mp hold'
  have hsorted : (items sorted).Pairwise fun a b => 0 < matching a → matching b ≠ 0 := by
    rw [items, List.pairwise_map]
    refine hin.imp fun {a b} hab hbigger hequal => ?_
    rw [hmatch] at hbigger hequal
    -- the template is not bigger than the first one of them
    have hle : cmp a templ ≤ 0 := hcmp.trans a b templ hab (le_of_eq hequal)
    omega
  have hlength : (items sorted).length < rounds := by
    rw [items, List.length_map, hperm.length_eq]
    omega
  refine ⟨_, sfindFrom_eq hpath (List.nodup_cons.mp hnodup).1 hsorted hlength, ?_, ?_⟩
  · intro node hfound
    obtain ⟨x, hx, rfl⟩ := List.mem_map.mp (List.mem_of_find?_eq_some hfound)
    have hzero := List.find?_some hfound
    exact ⟨x, hperm.mem_iff.mp hx, rfl, by simpa [hmatch] using hzero⟩
  · simp [items, hmatch, hperm.mem_iff]

/-- Three nodes in a ring, with the numbers 2 and 1 to be sorted. -/
def countdown : Links (Node ℕ) where
  next
    | .item 0 => .item 2
    | .item 2 => .item 1
    | .item 1 => .item 0
    | x => x
  prev
    | .item 0 => .item 1
    | .item 1 => .item 2
    | .item 2 => .item 0
    | x => x

/-- The difference of two numbers. -/
def difference (a b : ℕ) : ℤ := a - b

theorem difference_order : TotalOrder difference where
  swap a b := by simp only [difference]; omega
  trans a b c hab hbc := by simp only [difference] at *; omega

theorem countdown_holds : countdown.Holds (ring (items [0, 2, 1]) + 0) :=
  holds_ring_add.mpr ⟨by decide, by decide, by simp [nodes], holds_zero _⟩

/-- The two nodes are sorted. -/
theorem llist_sort_countdown :
    ∃ limit, ∀ rounds ≥ limit, ∃ h' sorted,
      sort difference rounds 0 countdown (.item 0) = some (h', .item 0) ∧
      h'.Holds (ring (items (0 :: sorted)) + 0) ∧ sorted.Perm [2, 1] ∧ InOrder difference sorted :=
  llist_sort_sorts difference_order countdown_holds (by simp [nodes])

theorem llist_sfind_countdown : ∃ limit, ∀ rounds ≥ limit, ∃ h',
    sort difference rounds 0 countdown (.item 0) = some (h', .item 0) ∧
    ∃ found, sfind (fun x => (compare difference x (.item 2)).getD 0) rounds h' (.item 0) = some found ∧
      (found = none ↔ ∀ x ∈ [2, 1], difference x 2 ≠ 0) := by
  obtain ⟨limit, hlimit⟩ := llist_sfind_sorted difference_order countdown_holds (by simp [nodes])
  refine ⟨limit, fun rounds hrounds => ?_⟩
  obtain ⟨h', hsort, hfind⟩ := hlimit rounds hrounds
  obtain ⟨found, hfound, -, hnone⟩ := hfind 2 (fun x => (compare difference x (.item 2)).getD 0) fun _ => rfl
  exact ⟨h', hsort, found, hfound, hnone⟩

end Lumiera.Lib.LList
