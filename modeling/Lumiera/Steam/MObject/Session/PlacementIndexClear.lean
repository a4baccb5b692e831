import Lumiera.Steam.MObject.Session.PlacementIndexConsistent

/-! # Clearing a scope of the PlacementIndex

To clear a scope means to remove it with everything below, and nothing else (`clearScope_of_ne`). Only
the root shall be retained; yet `Table::clear` sets it up anew as a copy, and any copy of a Placement
has an identity of its own. So the root is there, but it can no longer be found under the ID it had. -/

namespace Lumiera.Steam.MObject.Session

open List

universe u v

open Relation (ReflTransGen TransGen)

namespace Table

variable {PID : Type u} {Obj : Type v} [DecidableEq PID] {t t' t'' : Table PID Obj} {s id : PID}

/-! ## What remains -/

/-- The element belongs to the subtree of a scope: it is the scope itself or below. -/
def Within (t : Table PID Obj) (scope id : PID) : Prop := ReflTransGen t.Lists scope id

/-- **What remains of an index** when a scope is cleared: exactly the elements of its subtree are removed,
any other element has the same row and is listed in the same scope; but when the scope is root, there
remains the root alone, under the ID it had before. -/
structure Remains (t : Table PID Obj) (scope : PID) (t' : Table PID Obj) : Prop where
  removed : scope ≠ t.root_.getID → ∀ id, t'.contains id ↔ t.contains id ∧ ¬ t.Within scope id
  unchanged : ∀ id, t.contains id → ¬ t.Within scope id →
    t'.placementTab_.lookup id = t.placementTab_.lookup id ∧ ∀ p, t'.Lists p id ↔ t.Lists p id
  root_only : scope = t.root_.getID → (∀ id, t'.contains id ↔ id = t.root_.getID) ∧ ∀ p id, ¬ t'.Lists p id

/-- All but these elements are kept, with their rows and in their scopes. -/
structure Keeps (discarded : PID → Prop) (t t' : Table PID Obj) : Prop where
  rows : ∀ id, ¬ discarded id → t'.placementTab_.lookup id = t.placementTab_.lookup id
  pairs : ∀ p id, ¬ discarded id → (t'.Lists p id ↔ t.Lists p id)

namespace Keeps

variable {discarded discarded' : PID → Prop}

theorem refl (discarded : PID → Prop) (t : Table PID Obj) : Keeps discarded t t :=
  ⟨fun _ _ => rfl, fun _ _ _ => Iff.rfl⟩

theorem mono (h : Keeps discarded t t') (hle : ∀ id, discarded id → discarded' id) : Keeps discarded' t t' :=
  ⟨fun id hid => h.rows id fun hd => hid (hle id hd), fun p id hid => h.pairs p id fun hd => hid (hle id hd)⟩

theorem trans (h : Keeps discarded t t') (h' : Keeps discarded t' t'') : Keeps discarded t t'' :=
  ⟨fun id hid => (h'.rows id hid).trans (h.rows id hid), fun p id hid => (h'.pairs p id hid).trans (h.pairs p id hid)⟩

end Keeps

theorem keeps_eraseRow (t : Table PID Obj) (key : PID) : Keeps (· = key) t (t.eraseRow key) :=
  ⟨fun _ hne => lookup_eraseRow hne, fun _ _ _ => Iff.rfl⟩

theorem keeps_eraseScope (t : Table PID Obj) (scopeID : PID) :
    Keeps (TransGen t.Lists scopeID) t (t.eraseScope scopeID) := by
  refine ⟨fun _ _ => rfl, fun p id hid => ?_⟩
  unfold Lists
  rw [mem_eraseScope]
  refine ⟨And.left, fun hlists => ⟨hlists, ?_⟩⟩
  rintro rfl
  exact hid (.single hlists)

omit [DecidableEq PID] in
theorem below_mono (h : ∀ p id, t'.Lists p id → t.Lists p id) (hbelow : TransGen t'.Lists s id) :
    TransGen t.Lists s id :=
  TransGen.mono h _ _ hbelow

/-! ## The recursion -/

/-- The loop over the children discards only what is below the scope, provided that this holds for the
contents of each child. -/
theorem discardEach_keeps {removeContents : Table PID Obj → PID → Option (Table PID Obj)}
    (hremove : ∀ t c t', removeContents t c = some t' →
      Keeps (TransGen t.Lists c) t t' ∧ ∀ p id, t'.Lists p id → t.Lists p id)
    {base : Table PID Obj} {rest : List PID} (hrest : ∀ c ∈ rest, base.Lists s c)
    (hbase : ∀ p id, t.Lists p id → base.Lists p id) (h : discardEach removeContents t rest = some t') :
    Keeps (TransGen base.Lists s) t t' ∧ ∀ p id, t'.Lists p id → t.Lists p id := by
  induction rest generalizing t with
  | nil =>
    cases h
    exact ⟨.refl _ _, fun _ _ h => h⟩
  | cons c rest ih =>
    have hchild : base.Lists s c := hrest c mem_cons_self
    rw [discardEach] at h
    split at h
    · cases h
    · rename_i emptied hemptied
      obtain ⟨hkeeps, hless⟩ := hremove t c emptied hemptied
      -- whatever is below the child is below the scope
      have hbelow : Keeps (TransGen base.Lists s) t emptied :=
        hkeeps.mono fun id hid => .head hchild (below_mono hbase hid)
      rw [removeBaseEntry] at h
      cases hrow : emptied.placementTab_.lookup c with
      | none =>
        rw [hrow] at h
        cases h
      | some row =>
        rw [hrow, Option.map_some] at h
        dsimp only at h
        split at h
        · cases h
        · have herased : Keeps (TransGen base.Lists s) emptied (emptied.eraseRow c) :=
            (keeps_eraseRow emptied c).mono fun id hid => hid ▸ .single hchild
          have hbase' : ∀ p id, (emptied.eraseRow c).Lists p id → base.Lists p id :=
            fun p id hlists => hbase p id (hless p id hlists)
          obtain ⟨hloop, hless'⟩ := ih (fun c' hc' => hrest c' (mem_cons_of_mem c hc')) hbase' h
          exact ⟨(hbelow.trans herased).trans hloop, fun p id hlists => hless p id (hless' p id hlists)⟩

/-- Emptying a scope discards only what is below. -/
theorem removeAllFromScope_keeps (fuel : Nat) (h : removeAllFromScope fuel t s = some t') :
    Keeps (TransGen t.Lists s) t t' ∧ ∀ p id, t'.Lists p id → t.Lists p id := by
  induction fuel generalizing t s t' with
  | zero => cases h
  | succ fuel ih =>
    have hless : ∀ p id, (t.eraseScope s).Lists p id → t.Lists p id :=
      fun p id hlists => (mem_eraseScope.mp hlists).1
    obtain ⟨hloop, hless'⟩ := discardEach_keeps (fun t c t' => ih)
      (fun c hc => mem_children.mp hc) hless h
    exact ⟨(keeps_eraseScope t s).trans hloop, fun p id hlists => hless p id (hless' p id hlists)⟩

theorem keeps_discard (t : Table PID Obj) (scope id : PID) : Keeps (· = id) t (t.discard scope id) := by
  refine ⟨fun x hne => lookup_eraseRow hne, fun p x hne => ?_⟩
  refine mem_erase_of_ne fun heq => hne (Prod.mk.inj heq).2

/-! ## Clearing a scope -/

theorem Consistent.consistentBut (h : Consistent t) : ConsistentBut [] t where
  root_entry := h.root_entry
  entry_id := h.entry_id
  scope_known := h.scope_known
  registered scope id := by simpa [Lists] using h.inverse scope id
  members_nodup := by
    refine nodup_iff_count_le_one.mpr fun id => ?_
    by_cases hmem : id ∈ t.scopeTab_.map Prod.snd
    · obtain ⟨⟨scope, x⟩, hpair, rfl⟩ := mem_map.mp hmem
      obtain ⟨hroot, hlink⟩ := (h.inverse scope x).mp hpair
      exact Nat.le_of_eq (h.registered_once x hlink.contains hroot)
    · rw [count_eq_zero_of_not_mem hmem]
      exact Nat.zero_le 1
  attached := h.attached
  orphan_known _ hid := (not_mem_nil hid).elim

theorem not_contains_of_within (h : ConsistentBut [] t) (h' : ConsistentBut [] t')
    (htrim : Trimmed t t') (hs : ¬ t'.contains s) (hwithin : t.Within s id) : ¬ t'.contains id := by
  induction hwithin with
  | refl => exact hs
  | @tail p x _ hlists ih =>
    intro hx
    obtain ⟨-, -, hlink⟩ := (h.registered p x).mp hlists
    obtain ⟨row, hrow⟩ := contains_iff.mp hx
    have hlink' : t'.ScopeLink x row.scope.getID := ⟨row, hrow, rfl⟩
    have hsame : row.scope.getID = p := (htrim.scopeLink hlink').unique hlink
    exact ih (hsame ▸ h'.contains_scope hlink')

theorem trimmed_discard (t : Table PID Obj) (scope id : PID) : Trimmed t (t.discard scope id) where
  root_eq := rfl
  rows _ _ hrow := (lookup_eraseRow_eq_some.mp hrow).2
  pairs _ hpair := mem_of_mem_erase hpair
  length_le := length_erase_le

/-- A scope is removed with everything below, and nothing else. -/
theorem removeAll_keeps (h : ConsistentBut [] t) (hroot : s ≠ t.root_.getID) (hs : t.contains s) :
    ∃ t', t.removeAll s = some (.ok true, t') ∧ ConsistentBut [] t' ∧ Trimmed t t' ∧ ¬ t'.contains s ∧
      Keeps (t.Within s) t t' := by
  obtain ⟨t₁, hrun, hdone⟩ := removeAllFromScope_spec (t.scopeTab_.length + 1) h hs
    (fun o ho => (not_mem_nil ho).elim) (Nat.lt_succ_self _)
  have hs₁ : t₁.contains s := by
    rw [Table.contains, hdone.above_kept s .refl]
    exact hs
  have hroot₁ : s ≠ t₁.root_.getID := by rwa [hdone.trimmed.root_eq]
  obtain ⟨scope, hlists, hentry, h', hempty⟩ := removeEntry_of_leaf hdone.consistent hroot₁ hs₁ hdone.empty
  have hgone := not_contains_discard t₁ scope s
  have hbelow : Keeps (t.Within s) t t₁ :=
    (removeAllFromScope_keeps _ hrun).1.mono fun id hid => hid.to_reflTransGen
  have hself : Keeps (t.Within s) t₁ (t₁.discard scope s) :=
    (keeps_discard t₁ scope s).mono fun id hid => hid ▸ .refl
  refine ⟨t₁.discard scope s, ?_, h', hdone.trimmed.trans (trimmed_discard t₁ scope s), hgone,
    hbelow.trans hself⟩
  simp only [removeAll, hrun, hentry, hempty, hgone, or_self, ite_false, Bool.false_eq_true]

end Table

namespace PlacementIndex

variable {PID : Type u} {Obj : Type v} [DecidableEq PID] {t : Table PID Obj} {scope newRootID : PID}

open Table

/-- **Clearing the scope works as expected**: it returns, and what should remain does so. -/
def Clears (t : Table PID Obj) (scope newRootID : PID) : Prop :=
  ∃ t', clearScope t scope newRootID = some (.ok (), t') ∧ t.Remains scope t'

theorem getRootElement_eq (h : ConsistentBut [] t) : t.getRootElement = some t.root_ :=
  if_pos h.contains_root

/-- A scope other than root is cleared as expected. -/
theorem clears_of_ne (h : ConsistentBut [] t) (hroot : scope ≠ t.root_.getID) (hscope : t.contains scope) :
    Clears t scope newRootID := by
  obtain ⟨t', hrem, h', htrim, hgone, hkeeps⟩ := removeAll_keeps h hroot hscope
  refine ⟨t', ?_, fun _ id => ?_, fun id _ hid => ⟨hkeeps.rows id hid, fun p => hkeeps.pairs p id hid⟩,
    fun heq => absurd heq hroot⟩
  · simp [clearScope, getRootElement_eq h, hroot, hrem, Except.map, h'.isValid]
  · constructor
    · intro hid
      refine ⟨?_, fun hwithin => not_contains_of_within h h' htrim hgone hwithin hid⟩
      obtain ⟨row, hrow⟩ := contains_iff.mp hid
      exact contains_iff.mpr ⟨row, htrim.rows id row hrow⟩
    · rintro ⟨hid, hwithin⟩
      rw [Table.contains, hkeeps.rows id hwithin]
      exact hid

theorem clear_eq (t : Table PID Obj) (newRootID : PID) : t.clear newRootID = some
    { placementTab_ := AList.insert newRootID ⟨t.root_.copy newRootID, t.root_.copy newRootID⟩ ∅
      scopeTab_ := []
      root_ := t.root_.copy newRootID } := by
  unfold Table.clear setupRoot
  exact if_pos ⟨rfl, rfl⟩

theorem not_clears_root (h : ConsistentBut [] t) (hnew : ¬ t.contains newRootID) :
    ¬ Clears t t.root_.getID newRootID := by
  rintro ⟨t', hclear, hremains⟩
  have hne : t.root_.getID ≠ newRootID := by
    rintro heq
    exact hnew (heq ▸ h.contains_root)
  have hkept : t'.contains t.root_.getID = true := ((hremains.root_only rfl).1 _).mpr rfl
  rw [clearScope, getRootElement_eq h] at hclear
  simp only [if_pos, clear_eq, Option.map_some] at hclear
  split_ifs at hclear
  · cases hclear
    rw [Table.contains, AList.lookup_insert_ne hne] at hkept
    cases hkept

/-- **A scope is cleared as expected if and only if it is not the root**; as usual, the copy of the root has
an ID which did not occur yet. -/
theorem clears_iff (h : Consistent t) (hscope : t.contains scope) (hnew : ¬ t.contains newRootID) :
    Clears t scope newRootID ↔ scope ≠ t.root_.getID := by
  constructor
  · rintro hclears rfl
    exact not_clears_root h.consistentBut hnew hclears
  · intro hroot
    exact clears_of_ne h.consistentBut hroot hscope

/-- An index with a scope below root, and an element in this scope. -/
def nestedIndex : Table Nat Nat where
  placementTab_ := ((AList.singleton 0 ⟨⟨0, 80⟩, ⟨0, 80⟩⟩).insert 1 ⟨⟨1, 70⟩, ⟨0, 80⟩⟩).insert 2 ⟨⟨2, 70⟩, ⟨1, 70⟩⟩
  scopeTab_ := [(0, 1), (1, 2)]
  root_ := ⟨0, 80⟩

theorem reachable_nestedIndex : (machine Nat Nat).Reachable nestedIndex := by
  let start : Table Nat Nat := ⟨AList.singleton 0 ⟨⟨0, 80⟩, ⟨0, 80⟩⟩, [], ⟨0, 80⟩⟩
  have hinit : construct ⟨8, 80⟩ 0 = some start := rfl
  have hrun : Machine.exec perform start [.insert ⟨7, 70⟩ 0 1, .insert ⟨7, 70⟩ 1 2] = some nestedIndex := rfl
  have hcalls : (Machine.ofFun start perform).Run start [.insert ⟨7, 70⟩ 0 1, .insert ⟨7, 70⟩ 1 2] nestedIndex :=
    Machine.run_ofFun_iff.mpr hrun
  have hsteps : ∀ s call t, (Machine.ofFun start perform).step s call t →
      (machine Nat Nat).step s call t := fun _ _ _ h => h
  exact ⟨start, _, ⟨_, _, hinit⟩, hcalls.mono hsteps⟩

/-- The scope is cleared as expected, and root is not. -/
theorem clears_nestedIndex : Clears nestedIndex 1 9 ↔ 1 ≠ nestedIndex.root_.getID :=
  clears_iff (invariant_consistentBut.reachable reachable_nestedIndex).toConsistent rfl (by decide)

/-- After clearing root, there is nothing under the ID root had before. -/
theorem not_clears_nestedIndex : ¬ Clears nestedIndex nestedIndex.root_.getID 9 ∧
    ∃ t', clearScope nestedIndex nestedIndex.root_.getID 9 = some (.ok (), t') ∧
      ¬ t'.contains nestedIndex.root_.getID ∧ t'.contains 9 := by
  have h := invariant_consistentBut.reachable reachable_nestedIndex
  exact ⟨not_clears_root h (by decide), _, rfl, by decide, by decide⟩

end PlacementIndex

end Lumiera.Steam.MObject.Session
