import Mathlib.Data.Set.Card
import Lumiera.Steam.MObject.Session.PlacementIndex

/-! # Consistency of the PlacementIndex

The two tables of the index describe one tree: the main table links every element to its scope, the
scope table lists the contents of every scope. `Table.Consistent` states that they do so, and
`PlacementIndex.consistent` that every run of calls keeps it, raised exceptions included.

The removal of a scope passes through states which are not consistent: the pairs of a scope are
erased at once, while its elements are still in the main table. Such elements are **orphans**, and
`Table.ConsistentBut orphans` is the invariant of the recursion. What it needs in addition is that
the orphans sit in scopes which enclose the one about to be emptied, so that no orphan is ever below
an element which is discarded. -/

namespace Lumiera.Steam.MObject.Session

open List

universe u v

open Relation (ReflTransGen TransGen)

namespace Table

variable {PID : Type u} {Obj : Type v} [DecidableEq PID]

/-- The scope link: the element `id` is stored with the scope `scope`. -/
def ScopeLink (t : Table PID Obj) (id scope : PID) : Prop :=
  ∃ entry, t.placementTab_.lookup id = some entry ∧ entry.scope.getID = scope

/-- The table is consistent, save that the **orphans** are not listed in the scope table. -/
structure ConsistentBut (orphans : List PID) (t : Table PID Obj) : Prop where
  root_entry : t.placementTab_.lookup t.root_.getID = some ⟨t.root_, t.root_⟩
  entry_id : ∀ id entry, t.placementTab_.lookup id = some entry → entry.element.getID = id
  scope_known : ∀ id entry, t.placementTab_.lookup id = some entry →
    ∃ scope, t.placementTab_.lookup entry.scope.getID = some scope ∧ scope.element = entry.scope
  registered : ∀ scope id, (scope, id) ∈ t.scopeTab_ ↔
    id ≠ t.root_.getID ∧ id ∉ orphans ∧ t.ScopeLink id scope
  members_nodup : (t.scopeTab_.map Prod.snd).Nodup
  attached : ∀ id, t.contains id → ReflTransGen t.ScopeLink id t.root_.getID
  orphan_known : ∀ id ∈ orphans, id ≠ t.root_.getID ∧ t.contains id

/-- An ID is listed among the contents of a scope. -/
def Lists (t : Table PID Obj) (scope id : PID) : Prop := (scope, id) ∈ t.scopeTab_

/-- **Consistency of the index.** The main table and the scope table are inverse to each other, every
element other than root is registered once, every element reaches root along the scope links, and
the size is the number of elements in the tree which hangs below root. -/
structure Consistent (t : Table PID Obj) : Prop where
  root_entry : t.placementTab_.lookup t.root_.getID = some ⟨t.root_, t.root_⟩
  entry_id : ∀ id entry, t.placementTab_.lookup id = some entry → entry.element.getID = id
  scope_known : ∀ id entry, t.placementTab_.lookup id = some entry →
    ∃ scope, t.placementTab_.lookup entry.scope.getID = some scope ∧ scope.element = entry.scope
  inverse : ∀ scope id, t.Lists scope id ↔ id ≠ t.root_.getID ∧ t.ScopeLink id scope
  registered_once : ∀ id, t.contains id → id ≠ t.root_.getID →
    (t.scopeTab_.map Prod.snd).count id = 1
  attached : ∀ id, t.contains id → ReflTransGen t.ScopeLink id t.root_.getID
  size_eq : PlacementIndex.size t = Set.ncard {id | TransGen t.Lists t.root_.getID id}

/-! ## Scope links -/

variable {id : PID}

theorem ScopeLink.unique {t : Table PID Obj} {a b : PID} (ha : t.ScopeLink id a) (hb : t.ScopeLink id b) : a = b := by
  obtain ⟨e, he, rfl⟩ := ha
  obtain ⟨f, hf, rfl⟩ := hb
  rw [he] at hf
  rw [Option.some.inj hf]

variable {scope : PID}

theorem ScopeLink.contains {t : Table PID Obj} (h : t.ScopeLink id scope) : t.contains id := by
  obtain ⟨e, he, -⟩ := h
  simp [Table.contains, he]

theorem contains_iff {t : Table PID Obj} : t.contains id ↔ ∃ entry, t.placementTab_.lookup id = some entry := by
  simp [Table.contains, Option.isSome_iff_exists]

variable {t' : Table PID Obj}

theorem scopeLink_congr {t : Table PID Obj} (h : t'.placementTab_.lookup id = t.placementTab_.lookup id) :
    t'.ScopeLink id scope ↔ t.ScopeLink id scope := by
  simp only [ScopeLink, h]

theorem containsScope_iff {t : Table PID Obj} : t.containsScope scope ↔ ∃ id, (scope, id) ∈ t.scopeTab_ := by
  simp [containsScope]

theorem mem_children {t : Table PID Obj} : id ∈ t.children scope ↔ (scope, id) ∈ t.scopeTab_ := by
  simp [children]

namespace ConsistentBut

variable {t : Table PID Obj} {orphans : List PID}

theorem contains_root (h : ConsistentBut orphans t) : t.contains t.root_.getID := by
  simp [Table.contains, h.root_entry]

theorem link_root (h : ConsistentBut orphans t) {scope : PID} :
    t.ScopeLink t.root_.getID scope ↔ scope = t.root_.getID := by
  simp [ScopeLink, h.root_entry, eq_comm]

theorem contains_scope (h : ConsistentBut orphans t) {id scope : PID}
    (hlink : t.ScopeLink id scope) : t.contains scope := by
  obtain ⟨entry, hentry, rfl⟩ := hlink
  obtain ⟨scope, hscope, -⟩ := h.scope_known id entry hentry
  simp [Table.contains, hscope]

theorem eq_root_of_above (h : ConsistentBut orphans t) {id : PID}
    (habove : ReflTransGen t.ScopeLink t.root_.getID id) : id = t.root_.getID := by
  induction habove with
  | refl => rfl
  | tail _ hlink ih =>
    subst ih
    exact h.link_root.mp hlink

theorem leads_back {c s x : PID} (hlink : t.ScopeLink c s) (hcycle : ReflTransGen t.ScopeLink s c)
    (hx : ReflTransGen t.ScopeLink c x) : ReflTransGen t.ScopeLink x c := by
  induction hx with
  | refl => exact .refl
  | tail _ hstep ih =>
    rcases ReflTransGen.cases_head ih with heq | ⟨z, hz, hback⟩
    · subst heq
      rwa [hstep.unique hlink]
    · rwa [hstep.unique hz]

/-- The scope links have no cycle besides the one of root. -/
theorem acyclic (h : ConsistentBut orphans t) {c s : PID} (hroot : c ≠ t.root_.getID)
    (hlink : t.ScopeLink c s) : ¬ ReflTransGen t.ScopeLink s c := by
  intro hcycle
  have hup := h.attached c hlink.contains
  exact hroot (h.eq_root_of_above (leads_back hlink hcycle hup))

end ConsistentBut

/-! ## Removal, one row at a time -/

/-- What a removal leaves: rows and pairs may be gone, none is changed or added. -/
structure Trimmed (t t' : Table PID Obj) : Prop where
  root_eq : t'.root_ = t.root_
  rows : ∀ id entry, t'.placementTab_.lookup id = some entry →
    t.placementTab_.lookup id = some entry
  pairs : ∀ pair ∈ t'.scopeTab_, pair ∈ t.scopeTab_
  length_le : t'.scopeTab_.length ≤ t.scopeTab_.length

theorem Trimmed.refl (t : Table PID Obj) : Trimmed t t :=
  ⟨rfl, fun _ _ h => h, fun _ h => h, le_refl _⟩

theorem Trimmed.trans {t t'' : Table PID Obj} (h : Trimmed t t') (h' : Trimmed t' t'') :
    Trimmed t t'' where
  root_eq := h'.root_eq.trans h.root_eq
  rows id entry hrow := h.rows id entry (h'.rows id entry hrow)
  pairs pair hpair := h.pairs pair (h'.pairs pair hpair)
  length_le := h'.length_le.trans h.length_le

theorem Trimmed.scopeLink {t : Table PID Obj} (h : Trimmed t t') (hlink : t'.ScopeLink id scope) :
    t.ScopeLink id scope := by
  obtain ⟨entry, hentry, hscope⟩ := hlink
  exact ⟨entry, h.rows id entry hentry, hscope⟩

theorem Trimmed.not_containsScope {t : Table PID Obj} (h : Trimmed t t') (hempty : ¬ t.containsScope scope) :
    ¬ t'.containsScope scope := by
  rw [containsScope_iff] at hempty ⊢
  rintro ⟨id, hid⟩
  exact hempty ⟨id, h.pairs _ hid⟩

theorem above_of_kept {t : Table PID Obj} {s p : PID}
    (hkeep : ∀ id, ReflTransGen t.ScopeLink s id → t'.placementTab_.lookup id = t.placementTab_.lookup id)
    (habove : ReflTransGen t.ScopeLink s p) : ReflTransGen t'.ScopeLink s p := by
  induction habove with
  | refl => exact .refl
  | tail hup hlink ih => exact ih.tail ((scopeLink_congr (hkeep _ hup)).mpr hlink)

/-- Discard the row of an element. -/
def eraseRow (t : Table PID Obj) (id : PID) : Table PID Obj :=
  { t with placementTab_ := t.placementTab_.erase id }

variable {key : PID}

theorem lookup_eraseRow {t : Table PID Obj} (hne : id ≠ key) :
    (t.eraseRow key).placementTab_.lookup id = t.placementTab_.lookup id :=
  AList.lookup_erase_ne hne

variable {entry : PlacementEntry PID Obj}

theorem lookup_eraseRow_eq_some {t : Table PID Obj} : (t.eraseRow key).placementTab_.lookup id = some entry ↔
    id ≠ key ∧ t.placementTab_.lookup id = some entry := by
  by_cases hne : id = key
  · subst hne
    simp [eraseRow]
  · simp [lookup_eraseRow hne, hne]

theorem scopeLink_eraseRow {t : Table PID Obj} :
    (t.eraseRow key).ScopeLink id scope ↔ id ≠ key ∧ t.ScopeLink id scope := by
  simp only [ScopeLink, lookup_eraseRow_eq_some, and_assoc, exists_and_left]

theorem trimmed_eraseRow (t : Table PID Obj) (key : PID) : Trimmed t (t.eraseRow key) where
  root_eq := rfl
  rows _ _ hrow := (lookup_eraseRow_eq_some.mp hrow).2
  pairs _ hpair := hpair
  length_le := le_refl _

theorem above_eraseRow {t : Table PID Obj} (hnolink : ∀ x, x ≠ key → ¬ t.ScopeLink x key)
    (habove : ReflTransGen t.ScopeLink id scope) (hne : id ≠ key) :
    ReflTransGen (t.eraseRow key).ScopeLink id scope := by
  induction habove using ReflTransGen.head_induction_on with
  | refl => exact .refl
  | @head a b hlink _ ih =>
    have hb : b ≠ key := by
      intro heq
      subst heq
      exact hnolink a hne hlink
    exact .head (scopeLink_eraseRow.mpr ⟨hne, hlink⟩) (ih hb)

theorem removeBaseEntry_eq {t : Table PID Obj} (h : t.placementTab_.lookup key = some entry) :
    t.removeBaseEntry key = some (entry, t.eraseRow key) := by
  simp [removeBaseEntry, eraseRow, h]

variable {orphans : List PID}

theorem ConsistentBut.not_link {t : Table PID Obj} {c : PID}
    (h : ConsistentBut (c :: orphans) t) (hempty : ¬ t.containsScope c)
    (horphans : ∀ o ∈ orphans, ¬ t.ScopeLink o c) (hne : id ≠ c) : ¬ t.ScopeLink id c := by
  intro hlink
  have hc := h.orphan_known c (by simp)
  by_cases hroot : id = t.root_.getID
  · subst hroot
    exact hc.1 (h.link_root.mp hlink)
  by_cases horphan : id ∈ orphans
  · exact horphans id horphan hlink
  · have hlisted : (c, id) ∈ t.scopeTab_ :=
      (h.registered c id).mpr ⟨hroot, by simp [hne, horphan], hlink⟩
    exact hempty (containsScope_iff.mpr ⟨id, hlisted⟩)

/-- Discarding an orphan without contents leaves the other orphans. -/
theorem ConsistentBut.eraseRow {t : Table PID Obj} {c : PID}
    (h : ConsistentBut (c :: orphans) t) (hempty : ¬ t.containsScope c)
    (horphans : ∀ o ∈ orphans, ¬ t.ScopeLink o c) (hnew : c ∉ orphans) :
    ConsistentBut orphans (t.eraseRow c) := by
  have hc := h.orphan_known c (by simp)
  have hnolink : ∀ id, id ≠ c → ¬ t.ScopeLink id c := fun id => h.not_link hempty horphans
  refine ⟨?_, ?_, ?_, ?_, h.members_nodup, ?_, ?_⟩
  · exact lookup_eraseRow_eq_some.mpr ⟨Ne.symm hc.1, h.root_entry⟩
  · intro id entry hrow
    exact h.entry_id id entry (lookup_eraseRow_eq_some.mp hrow).2
  · intro id entry hrow
    obtain ⟨hne, hrow⟩ := lookup_eraseRow_eq_some.mp hrow
    obtain ⟨scope, hscope, helement⟩ := h.scope_known id entry hrow
    have hkept : entry.scope.getID ≠ c := by
      intro heq
      exact hnolink id hne ⟨entry, hrow, heq⟩
    exact ⟨scope, lookup_eraseRow_eq_some.mpr ⟨hkept, hscope⟩, helement⟩
  · intro scope id
    rw [scopeLink_eraseRow]
    show (scope, id) ∈ t.scopeTab_ ↔ id ≠ t.root_.getID ∧ _
    rw [h.registered, mem_cons]
    tauto
  · intro id hid
    obtain ⟨entry, hrow⟩ := contains_iff.mp hid
    obtain ⟨hne, hrow⟩ := lookup_eraseRow_eq_some.mp hrow
    exact above_eraseRow hnolink (h.attached id (contains_iff.mpr ⟨entry, hrow⟩)) hne
  · intro o ho
    obtain ⟨hroot, hknown⟩ := h.orphan_known o (by simp [ho])
    obtain ⟨entry, hrow⟩ := contains_iff.mp hknown
    have hne : o ≠ c := fun heq => hnew (heq ▸ ho)
    exact ⟨hroot, contains_iff.mpr ⟨entry, lookup_eraseRow_eq_some.mpr ⟨hne, hrow⟩⟩⟩

/-! ## Removal of all the contents of a scope -/

/-- Erase the pairs of a scope. -/
def eraseScope (t : Table PID Obj) (scopeID : PID) : Table PID Obj :=
  { t with scopeTab_ := t.scopeTab_.filter (·.1 != scopeID) }

variable {scopeID : PID}

theorem mem_eraseScope {t : Table PID Obj} :
    (scope, id) ∈ (t.eraseScope scopeID).scopeTab_ ↔ (scope, id) ∈ t.scopeTab_ ∧ scope ≠ scopeID := by
  simp [eraseScope]

theorem not_containsScope_eraseScope (t : Table PID Obj) (scopeID : PID) :
    ¬ (t.eraseScope scopeID).containsScope scopeID := by
  rw [containsScope_iff]
  rintro ⟨id, hid⟩
  exact (mem_eraseScope.mp hid).2 rfl

theorem trimmed_eraseScope (t : Table PID Obj) (scopeID : PID) :
    Trimmed t (t.eraseScope scopeID) where
  root_eq := rfl
  rows _ _ hrow := hrow
  pairs _ hpair := (mem_filter.mp hpair).1
  length_le := length_filter_le _ _

theorem eraseScope_of_empty {t : Table PID Obj} (hempty : ¬ t.containsScope scopeID) : t.eraseScope scopeID = t := by
  have hkeep : t.scopeTab_.filter (·.1 != scopeID) = t.scopeTab_ := by
    rw [filter_eq_self]
    rintro ⟨scope, id⟩ hmem
    have hne : scope ≠ scopeID := by
      rintro rfl
      exact hempty (containsScope_iff.mpr ⟨id, hmem⟩)
    simp [hne]
  simp [eraseScope, hkeep]

theorem length_eraseScope_lt {t : Table PID Obj} {child : PID} (hchild : child ∈ t.children scopeID) :
    (t.eraseScope scopeID).scopeTab_.length < t.scopeTab_.length := by
  have hmem := mem_children.mp hchild
  apply length_filter_lt_length_iff_exists.mpr
  exact ⟨(scopeID, child), hmem, by simp⟩

theorem children_nodup {t : Table PID Obj} (h : ConsistentBut orphans t)
    (scopeID : PID) : (t.children scopeID).Nodup :=
  h.members_nodup.sublist (filter_sublist.map Prod.snd)

/-- Erasing the pairs of a scope turns its contents into orphans. -/
theorem ConsistentBut.eraseScope {t : Table PID Obj} (h : ConsistentBut orphans t)
    (scopeID : PID) : ConsistentBut (t.children scopeID ++ orphans) (t.eraseScope scopeID) := by
  refine ⟨h.root_entry, h.entry_id, h.scope_known, ?_, ?_, h.attached, ?_⟩
  · intro scope id
    rw [mem_eraseScope, h.registered, mem_append, not_or, mem_children, h.registered]
    constructor
    · rintro ⟨⟨hroot, horphan, hlink⟩, hne⟩
      refine ⟨hroot, ⟨?_, horphan⟩, hlink⟩
      rintro ⟨-, -, hother⟩
      exact hne (hlink.unique hother)
    · rintro ⟨hroot, ⟨hchild, horphan⟩, hlink⟩
      refine ⟨⟨hroot, horphan, hlink⟩, ?_⟩
      rintro rfl
      exact hchild ⟨hroot, horphan, hlink⟩
  · exact h.members_nodup.sublist (filter_sublist.map Prod.snd)
  · intro id hid
    rcases mem_append.mp hid with hchild | horphan
    · obtain ⟨hroot, -, hlink⟩ := (h.registered scopeID id).mp (mem_children.mp hchild)
      exact ⟨hroot, hlink.contains⟩
    · exact h.orphan_known id horphan

/-- The orphans are in scopes which enclose the given one. -/
def Encloses (t : Table PID Obj) (orphans : List PID) (s : PID) : Prop :=
  ∀ o ∈ orphans, ∀ p, t.ScopeLink o p → ReflTransGen t.ScopeLink s p

/-- What the removal of the contents of the scope `s` achieves: the table it ends with is consistent
but for the orphans there were, the scope is empty, and the orphans are kept together with
everything above the scope. -/
structure Emptied (orphans : List PID) (s : PID) (t t' : Table PID Obj) : Prop where
  consistent : ConsistentBut orphans t'
  trimmed : Trimmed t t'
  empty : ¬ t'.containsScope s
  orphan_kept : ∀ id ∈ orphans, t'.placementTab_.lookup id = t.placementTab_.lookup id
  above_kept : ∀ id, ReflTransGen t.ScopeLink s id →
    t'.placementTab_.lookup id = t.placementTab_.lookup id

/-- The loop over the children, provided that the recursive call empties any scope whose contents
fit into the bound `n`. -/
theorem discardEach_spec {removeContents : Table PID Obj → PID → Option (Table PID Obj)} {n : Nat}
    (hremove : ∀ (t : Table PID Obj) (c : PID) (orphans : List PID), ConsistentBut orphans t →
      t.contains c → Encloses t orphans c → t.scopeTab_.length < n →
      ∃ t', removeContents t c = some t' ∧ Emptied orphans c t t')
    {s : PID} (rest : List PID) {t : Table PID Obj}
    (h : ConsistentBut (rest ++ orphans) t) (hnodup : rest.Nodup)
    (hdisjoint : ∀ c ∈ rest, c ∉ orphans) (hlinks : ∀ c ∈ rest, t.ScopeLink c s)
    (hencl : Encloses t orphans s) (hempty : ¬ t.containsScope s) (hlen : t.scopeTab_.length < n) :
    ∃ t', discardEach removeContents t rest = some t' ∧ Emptied orphans s t t' := by
  induction rest generalizing t with
  | nil =>
    exact ⟨t, rfl, h, .refl t, hempty, fun _ _ => rfl, fun _ _ => rfl⟩
  | cons c rest ih =>
    have hlink : t.ScopeLink c s := hlinks c (by simp)
    obtain ⟨hroot, hknown⟩ := h.orphan_known c (by simp)
    obtain ⟨hfresh, hnodup⟩ := nodup_cons.mp hnodup
    -- every pending orphan is in a scope above the child
    have henclc : Encloses t (c :: rest ++ orphans) c := by
      intro o ho p hp
      rcases mem_append.mp ho with hsibling | horphan
      · rw [hp.unique (hlinks o hsibling)]
        exact .single hlink
      · exact .head hlink (hencl o horphan p hp)
    obtain ⟨t₁, hrec, hdone⟩ := hremove t c _ h hknown henclc hlen
    obtain ⟨row, hrow⟩ := contains_iff.mp hknown
    have hrow₁ : t₁.placementTab_.lookup c = some row := by
      rw [hdone.orphan_kept c (by simp), hrow]
    have hnolink : ∀ o ∈ rest ++ orphans, ¬ t₁.ScopeLink o c := by
      intro o ho hoc
      have hoc := hdone.trimmed.scopeLink hoc
      rcases mem_append.mp ho with hsibling | horphan
      · have hself := (hlinks o (by simp [hsibling])).unique hoc
        exact h.acyclic hroot hlink (by rw [hself])
      · exact h.acyclic hroot hlink (hencl o horphan c hoc)
    have hnew : c ∉ rest ++ orphans := by
      simp [hfresh, hdisjoint c (by simp)]
    have h₂ : ConsistentBut (rest ++ orphans) (t₁.eraseRow c) :=
      hdone.consistent.eraseRow hdone.empty hnolink hnew
    have htrim : Trimmed t (t₁.eraseRow c) := hdone.trimmed.trans (trimmed_eraseRow t₁ c)
    -- neither the other orphans nor the enclosing scopes are touched
    have hkeep : ∀ o ∈ rest ++ orphans,
        (t₁.eraseRow c).placementTab_.lookup o = t.placementTab_.lookup o := by
      intro o ho
      have hne : o ≠ c := fun heq => hnew (heq ▸ ho)
      rw [lookup_eraseRow hne, hdone.orphan_kept o (mem_cons_of_mem _ ho)]
    have habove : ∀ id, ReflTransGen t.ScopeLink s id →
        (t₁.eraseRow c).placementTab_.lookup id = t.placementTab_.lookup id := by
      intro id hid
      have hne : id ≠ c := by
        rintro rfl
        exact h.acyclic hroot hlink hid
      rw [lookup_eraseRow hne, hdone.above_kept id (.head hlink hid)]
    obtain ⟨t', hloop, hrest⟩ := ih h₂ hnodup
      (fun o ho => hdisjoint o (by simp [ho]))
      (fun o ho => (scopeLink_congr (hkeep o (by simp [ho]))).mpr (hlinks o (by simp [ho])))
      (fun o ho p hp => above_of_kept habove (hencl o ho p (htrim.scopeLink hp)))
      (htrim.not_containsScope hempty)
      (lt_of_le_of_lt htrim.length_le hlen)
    refine ⟨t', ?_, hrest.consistent, htrim.trans hrest.trimmed, hrest.empty, ?_, ?_⟩
    · have hgone : ¬ (t₁.eraseRow c).contains c := by
        simp [Table.contains, Table.eraseRow]
      have hnone : ¬ (t₁.eraseRow c).containsScope c := hdone.empty
      simp only [discardEach, hrec, removeBaseEntry_eq hrow₁, hgone, hnone, or_self, ite_false,
        hloop, Bool.false_eq_true]
    · intro o ho
      rw [hrest.orphan_kept o ho, hkeep o (by simp [ho])]
    · intro id hid
      rw [hrest.above_kept id (above_of_kept habove hid), habove id hid]

/-- **The recursive removal empties the scope**, and reaches its end within the bound given by the
length of the scope table. -/
theorem removeAllFromScope_spec (fuel : Nat) {t : Table PID Obj} {s : PID}
    (h : ConsistentBut orphans t) (hs : t.contains s) (hencl : Encloses t orphans s)
    (hfuel : t.scopeTab_.length < fuel) :
    ∃ t', removeAllFromScope fuel t s = some t' ∧ Emptied orphans s t t' := by
  induction fuel generalizing t s orphans with
  | zero => omega
  | succ fuel ih =>
    have htrim := trimmed_eraseScope t s
    have hlisted : ∀ c ∈ t.children s, c ∉ orphans ∧ t.ScopeLink c s := by
      intro c hc
      exact ((h.registered s c).mp (mem_children.mp hc)).2
    by_cases hleaf : t.children s = []
    · have herased := h.eraseScope s
      rw [hleaf] at herased
      refine ⟨t.eraseScope s, ?_, herased, htrim, not_containsScope_eraseScope t s,
        fun _ _ => rfl, fun _ _ => rfl⟩
      simp only [removeAllFromScope, hleaf, discardEach, eraseScope]
    · obtain ⟨child, hchild⟩ := exists_mem_of_ne_nil _ hleaf
      have hlen := length_eraseScope_lt hchild
      obtain ⟨t', hloop, hdone⟩ := discardEach_spec (n := fuel)
        (fun t c orphans h hc hencl hlen => ih h hc hencl hlen)
        (t.children s) (h.eraseScope s) (children_nodup h s)
        (fun c hc => (hlisted c hc).1) (fun c hc => (hlisted c hc).2) hencl
        (not_containsScope_eraseScope t s) (by omega)
      exact ⟨t', hloop, hdone.consistent, htrim.trans hdone.trimmed, hdone.empty,
        hdone.orphan_kept, hdone.above_kept⟩

/-! ## The single operations -/

theorem setupRoot_spec {t : Table PID Obj} (hsize : t.size = 0) (hpairs : t.scopeTab_ = [])
    (rootDef : PlacementMO PID Obj) (rootID : PID) :
    ∃ t', t.setupRoot rootDef rootID = some t' ∧ ConsistentBut [] t' := by
  have hrows : t.placementTab_ = ∅ := by
    apply AList.ext
    simpa [size] using hsize
  have hlookup : ∀ id entry,
      (t.placementTab_.insert rootID ⟨rootDef.copy rootID, rootDef.copy rootID⟩).lookup id
        = some entry ↔ id = rootID ∧ entry = ⟨rootDef.copy rootID, rootDef.copy rootID⟩ := by
    intro id entry
    by_cases hid : id = rootID
    · subst hid
      simp [eq_comm]
    · rw [AList.lookup_insert_ne hid, hrows]
      simp [hid]
  refine ⟨_, if_pos ⟨hsize, by simp [hpairs]⟩, ?_⟩
  refine ⟨?_, ?_, ?_, ?_, by simp [hpairs], ?_, by simp⟩
  · exact (hlookup _ _).mpr ⟨rfl, rfl⟩
  · intro id entry hrow
    obtain ⟨rfl, rfl⟩ := (hlookup id entry).mp hrow
    rfl
  · intro id entry hrow
    obtain ⟨rfl, rfl⟩ := (hlookup id entry).mp hrow
    exact ⟨_, (hlookup _ _).mpr ⟨rfl, rfl⟩, rfl⟩
  · intro scope id
    simp only [hpairs, not_mem_nil, false_iff]
    rintro ⟨hroot, -, entry, hrow, -⟩
    exact hroot ((hlookup id entry).mp hrow).1
  · intro id hid
    obtain ⟨entry, hrow⟩ := contains_iff.mp hid
    obtain ⟨rfl, -⟩ := (hlookup id entry).mp hrow
    exact .refl

theorem clear_spec (t : Table PID Obj) (newRootID : PID) : ∃ t', t.clear newRootID = some t' ∧ ConsistentBut [] t' :=
  setupRoot_spec rfl rfl t.root_ newRootID

/-- Inserting into a known scope, with a fresh identity. -/
theorem addEntry_spec {t : Table PID Obj} (h : ConsistentBut [] t) (newObj : PlacementMO PID Obj) {newID : PID}
    (hscope : t.contains scopeID) (hfresh : ¬ t.contains newID) : ∃ t', t.addEntry newObj scopeID newID = some t' ∧
    ConsistentBut [] t' := by
  obtain ⟨scopeEntry, hscopeEntry⟩ := contains_iff.mp hscope
  have hscopeID : scopeEntry.element.getID = scopeID := h.entry_id _ _ hscopeEntry
  have hne : scopeID ≠ newID := fun heq => hfresh (heq ▸ hscope)
  have hroot : newID ≠ t.root_.getID := fun heq => hfresh (heq ▸ h.contains_root)
  obtain ⟨t', ht'⟩ : ∃ t', t' = ({ t with
      placementTab_ := t.placementTab_.insert newID ⟨newObj.copy newID, scopeEntry.element⟩
      scopeTab_ := t.scopeTab_ ++ [(scopeID, newID)] } : Table PID Obj) := ⟨_, rfl⟩
  refine ⟨t', by simp [addEntry, hscopeEntry, hfresh, ht'], ?_⟩
  have hroot_eq : t'.root_ = t.root_ := by rw [ht']
  have hnew : t'.placementTab_.lookup newID
      = some ⟨newObj.copy newID, scopeEntry.element⟩ := by
    simp [ht']
  have hold : ∀ id, id ≠ newID → t'.placementTab_.lookup id = t.placementTab_.lookup id := by
    intro id hid
    simp [ht', AList.lookup_insert_ne hid]
  have hlinkNew : ∀ s, t'.ScopeLink newID s ↔ s = scopeID := by
    intro s
    simp [ScopeLink, hnew, hscopeID, eq_comm]
  have hlinkOld : ∀ id s, id ≠ newID → (t'.ScopeLink id s ↔ t.ScopeLink id s) :=
    fun id s hid => scopeLink_congr (hold id hid)
  have hunlisted : ∀ s, (s, newID) ∉ t.scopeTab_ := by
    intro s hs
    exact hfresh ((h.registered s newID).mp hs).2.2.contains
  have habove : ∀ id, t.contains id → ReflTransGen t'.ScopeLink id t'.root_.getID := by
    intro id hid
    rw [hroot_eq]
    refine ReflTransGen.head_induction_on (h.attached id hid) .refl ?_
    intro a b hlink _ hrest
    have ha : a ≠ newID := fun heq => hfresh (heq ▸ hlink.contains)
    exact .head ((hlinkOld a b ha).mpr hlink) hrest
  refine ⟨?_, ?_, ?_, ?_, ?_, ?_, by simp⟩
  · rw [hroot_eq, hold _ (Ne.symm hroot)]
    exact h.root_entry
  · intro id entry hrow
    by_cases hid : id = newID
    · subst hid
      obtain rfl := Option.some.inj (hnew.symm.trans hrow)
      rfl
    · exact h.entry_id id entry (by rwa [hold id hid] at hrow)
  · intro id entry hrow
    by_cases hid : id = newID
    · subst hid
      obtain rfl := Option.some.inj (hnew.symm.trans hrow)
      refine ⟨scopeEntry, ?_, rfl⟩
      rw [hscopeID, hold _ hne, hscopeEntry]
    · obtain ⟨scope, hscope, helement⟩ := h.scope_known id entry (by rwa [hold id hid] at hrow)
      have hother : entry.scope.getID ≠ newID := by
        intro heq
        exact hfresh (contains_iff.mpr ⟨scope, heq ▸ hscope⟩)
      exact ⟨scope, by rw [hold _ hother, hscope], helement⟩
  · intro s id
    have hmem : (s, id) ∈ t'.scopeTab_ ↔ (s, id) ∈ t.scopeTab_ ∨ s = scopeID ∧ id = newID := by
      simp [ht']
    rw [hmem, hroot_eq]
    by_cases hid : id = newID
    · subst hid
      simp [hunlisted, hroot, hlinkNew]
    · simp [hid, h.registered, hlinkOld id s hid]
  · have hmembers : t'.scopeTab_.map Prod.snd = t.scopeTab_.map Prod.snd ++ [newID] := by
      simp [ht']
    rw [hmembers, nodup_append]
    refine ⟨h.members_nodup, by simp, ?_⟩
    intro id hid other hother
    rintro rfl
    obtain ⟨⟨s, id⟩, hpair, rfl⟩ := mem_map.mp hid
    obtain rfl : id = newID := by simpa using hother
    exact hunlisted s hpair
  · intro id hid
    by_cases hidNew : id = newID
    · subst hidNew
      exact .head ((hlinkNew scopeID).mpr rfl) (habove scopeID hscope)
    · obtain ⟨entry, hrow⟩ := contains_iff.mp hid
      exact habove id (contains_iff.mpr ⟨entry, by rw [← hold id hidNew, hrow]⟩)

theorem ConsistentBut.erasePair {t : Table PID Obj} (h : ConsistentBut [] t)
    (hlisted : (scope, id) ∈ t.scopeTab_) :
    ConsistentBut [id] { t with scopeTab_ := t.scopeTab_.erase (scope, id) } := by
  obtain ⟨hroot, -, hlink⟩ := (h.registered scope id).mp hlisted
  have hnodup : t.scopeTab_.Nodup := h.members_nodup.of_map
  refine ⟨h.root_entry, h.entry_id, h.scope_known, ?_, ?_, h.attached, ?_⟩
  · intro s x
    rw [hnodup.mem_erase_iff, h.registered]
    simp only [ne_eq, Prod.mk.injEq, not_and, not_mem_nil, not_false_eq_true, true_and,
      mem_singleton]
    constructor
    · rintro ⟨hother, hx, hlinkx⟩
      refine ⟨hx, ?_, hlinkx⟩
      rintro rfl
      exact hother (hlinkx.unique hlink) rfl
    · rintro ⟨hx, hne, hlinkx⟩
      exact ⟨fun _ heq => hne heq, hx, hlinkx⟩
  · exact h.members_nodup.sublist (erase_sublist.map Prod.snd)
  · intro x hx
    obtain rfl : x = id := by simpa using hx
    exact ⟨hroot, hlink.contains⟩

/-- The pair and the row of an element are discarded. -/
def discard (t : Table PID Obj) (scope id : PID) : Table PID Obj :=
  ({ t with scopeTab_ := t.scopeTab_.erase (scope, id) } : Table PID Obj).eraseRow id

theorem not_contains_discard (t : Table PID Obj) (scope id : PID) : ¬ (t.discard scope id).contains id := by
  simp [discard, Table.contains, Table.eraseRow]

/-- Removing an element without contents takes one leaf off the tree. -/
theorem removeEntry_of_leaf {t : Table PID Obj} (h : ConsistentBut [] t)
    (hroot : id ≠ t.root_.getID) (hid : t.contains id) (hscope : ¬ t.containsScope id) :
    ∃ scope, t.Lists scope id ∧ t.removeEntry id = some (.ok true, t.discard scope id) ∧
      ConsistentBut [] (t.discard scope id) ∧ ¬ (t.discard scope id).containsScope id := by
  obtain ⟨entry, hrow⟩ := contains_iff.mp hid
  have hlisted : (entry.scope.getID, id) ∈ t.scopeTab_ :=
    (h.registered _ id).mpr ⟨hroot, by simp, entry, hrow, rfl⟩
  have hempty : ¬ (t.discard entry.scope.getID id).containsScope id := by
    rw [containsScope_iff] at hscope ⊢
    rintro ⟨x, hx⟩
    exact hscope ⟨x, mem_of_mem_erase hx⟩
  have hgone := not_contains_discard t entry.scope.getID id
  have hpair : (t.eraseRow id).removeFromScope entry.scope.getID id =
      some (t.discard entry.scope.getID id) := by
    simp [removeFromScope, discard, Table.eraseRow, hlisted]
  refine ⟨entry.scope.getID, hlisted, ?_, ?_, hempty⟩
  · simp only [removeEntry, hid, hscope, removeBaseEntry_eq hrow, hpair, hempty, hgone,
      not_true_eq_false, or_self, ite_false, Bool.false_eq_true]
  · exact (h.erasePair hlisted).eraseRow hempty (by simp) (by simp)

/-- Removing a single entry either changes nothing or takes one leaf off the tree. -/
theorem removeEntry_spec {t : Table PID Obj} (h : ConsistentBut [] t)
    (hroot : id ≠ t.root_.getID) :
    ∃ result t', t.removeEntry id = some (result, t') ∧ ConsistentBut [] t' ∧
      (t.containsScope id ∨ ¬ t'.containsScope id ∧ ¬ t'.contains id) := by
  by_cases hid : t.contains id
  · by_cases hscope : t.containsScope id
    · exact ⟨.error .nonemptyScope, t, by simp [removeEntry, hid, hscope], h, .inl hscope⟩
    · obtain ⟨scope, -, hrem, h', hempty⟩ := removeEntry_of_leaf h hroot hid hscope
      exact ⟨.ok true, _, hrem, h', .inr ⟨hempty, not_contains_discard t scope id⟩⟩
  · have hscope : ¬ t.containsScope id := by
      rw [containsScope_iff]
      rintro ⟨x, hx⟩
      exact hid (h.contains_scope ((h.registered id x).mp hx).2.2)
    exact ⟨.ok false, t, by simp [removeEntry, hid, hscope], h, .inr ⟨hscope, hid⟩⟩

/-- Removing a scope with all its contents; an unknown ID has none. -/
theorem removeAll_spec {t : Table PID Obj} (h : ConsistentBut [] t) (hroot : id ≠ t.root_.getID) :
    ∃ result t', t.removeAll id = some (result, t') ∧ ConsistentBut [] t' := by
  have hemptied : ∃ t₁, removeAllFromScope (t.scopeTab_.length + 1) t id = some t₁ ∧
      ConsistentBut [] t₁ ∧ ¬ t₁.containsScope id ∧ t₁.root_ = t.root_ := by
    by_cases hid : t.contains id
    · obtain ⟨t₁, hrun, hdone⟩ := removeAllFromScope_spec (t.scopeTab_.length + 1) h hid
        (by simp [Encloses]) (by omega)
      exact ⟨t₁, hrun, hdone.consistent, hdone.empty, hdone.trimmed.root_eq⟩
    · have hscope : ¬ t.containsScope id := by
        rw [containsScope_iff]
        rintro ⟨x, hx⟩
        exact hid (h.contains_scope ((h.registered id x).mp hx).2.2)
      have hleaf : t.children id = [] := by
        rw [eq_nil_iff_forall_not_mem]
        intro x hx
        exact hscope (containsScope_iff.mpr ⟨x, mem_children.mp hx⟩)
      refine ⟨t, ?_, h, hscope, rfl⟩
      have hkeep := eraseScope_of_empty hscope
      rw [eraseScope] at hkeep
      simp only [removeAllFromScope, hleaf, discardEach, hkeep]
  obtain ⟨t₁, hrun, h₁, hempty, hroot₁⟩ := hemptied
  obtain ⟨result, t', hentry, h', hgone⟩ := removeEntry_spec h₁ (by rwa [hroot₁])
  rcases hgone with hscope | ⟨hscope, hid⟩
  · exact absurd hscope hempty
  · cases result with
    | error raised => exact ⟨.error raised, t', by simp only [removeAll, hrun, hentry], h'⟩
    | ok removed =>
      exact ⟨.ok removed, t', by simp [removeAll, hrun, hentry, hscope, hid], h'⟩

theorem ConsistentBut.rehash {t : Table PID Obj} (h : ConsistentBut orphans t)
    {scopeTab : List (PID × PID)} (hperm : scopeTab.Perm t.scopeTab_) :
    ConsistentBut orphans { t with scopeTab_ := scopeTab } where
  root_entry := h.root_entry
  entry_id := h.entry_id
  scope_known := h.scope_known
  registered scope id := hperm.mem_iff.trans (h.registered scope id)
  members_nodup := (hperm.map Prod.snd).nodup_iff.mpr h.members_nodup
  attached := h.attached
  orphan_known := h.orphan_known

/-! ## Counting the elements -/

theorem ConsistentBut.mem_members {t : Table PID Obj} (h : ConsistentBut [] t) :
    id ∈ t.scopeTab_.map Prod.snd ↔ id ≠ t.root_.getID ∧ t.contains id := by
  constructor
  · intro hid
    obtain ⟨⟨scope, x⟩, hpair, rfl⟩ := mem_map.mp hid
    obtain ⟨hroot, -, hlink⟩ := (h.registered scope x).mp hpair
    exact ⟨hroot, hlink.contains⟩
  · rintro ⟨hroot, hid⟩
    obtain ⟨entry, hrow⟩ := contains_iff.mp hid
    have hpair := (h.registered entry.scope.getID id).mpr ⟨hroot, by simp, entry, hrow, rfl⟩
    exact mem_map_of_mem hpair

theorem mem_keys {t : Table PID Obj} : id ∈ t.placementTab_.keys ↔ t.contains id := by
  rw [Table.contains, AList.lookup_isSome]
  exact AList.mem_keys

omit [DecidableEq PID] in
theorem length_keys (t : Table PID Obj) : t.placementTab_.keys.length = t.size := by
  simp [AList.keys, List.keys, size]

theorem ConsistentBut.size_eq {t : Table PID Obj} (h : ConsistentBut [] t) : t.size = t.scopeTab_.length + 1 := by
  have hkeys := t.placementTab_.keys_nodup
  have hroot : t.root_.getID ∈ t.placementTab_.keys := mem_keys.mpr h.contains_root
  have hperm : (t.scopeTab_.map Prod.snd).Perm (t.placementTab_.keys.erase t.root_.getID) := by
    rw [perm_ext_iff_of_nodup h.members_nodup (hkeys.erase _)]
    intro id
    rw [h.mem_members, hkeys.mem_erase_iff, mem_keys]
  have hlen := hperm.length_eq
  rw [length_map, length_erase_of_mem hroot, length_keys] at hlen
  have hpos : 0 < t.size := by
    rw [← length_keys]
    exact length_pos_of_mem hroot
  omega

theorem ConsistentBut.below_root {t : Table PID Obj} (h : ConsistentBut [] t) :
    TransGen t.Lists t.root_.getID id ↔ id ∈ t.scopeTab_.map Prod.snd := by
  rw [h.mem_members]
  constructor
  · intro hbelow
    obtain ⟨scope, -, hlast⟩ := TransGen.tail'_iff.mp hbelow
    obtain ⟨hroot, -, hlink⟩ := (h.registered scope id).mp hlast
    exact ⟨hroot, hlink.contains⟩
  · rintro ⟨hroot, hid⟩
    have hup := h.attached id hid
    induction hup using ReflTransGen.head_induction_on with
    | refl => exact absurd rfl hroot
    | @head a b hlink _ ih =>
      have hlast : t.Lists b a := (h.registered b a).mpr ⟨hroot, by simp, hlink⟩
      by_cases hb : b = t.root_.getID
      · exact .single (hb ▸ hlast)
      · exact (ih hb (h.contains_scope hlink)).tail hlast

theorem ConsistentBut.toConsistent {t : Table PID Obj} (h : ConsistentBut [] t) :
    Consistent t where
  root_entry := h.root_entry
  entry_id := h.entry_id
  scope_known := h.scope_known
  inverse scope id := by simpa [Lists] using h.registered scope id
  registered_once id hid hroot :=
    count_eq_one_of_mem h.members_nodup (h.mem_members.mpr ⟨hroot, hid⟩)
  attached := h.attached
  size_eq := by
    have hset : {id | TransGen t.Lists t.root_.getID id}
        = ((t.scopeTab_.map Prod.snd).toFinset : Set PID) := by
      ext id
      simp only [h.below_root, coe_toFinset]
    rw [hset, Set.ncard_coe_finset, toFinset_card_of_nodup h.members_nodup, length_map,
      PlacementIndex.size, h.size_eq, Nat.add_sub_cancel]

/-! ## The self-check -/

theorem outermostScope_root {t : Table PID Obj} (h : ConsistentBut orphans t)
    (steps : Nat) {scope : PlacementMO PID Obj} (hscope : scope.getID = t.root_.getID) :
    t.outermostScope (steps + 1) scope = some scope := by
  have hrow : t.placementTab_.lookup scope.getID = some ⟨t.root_, t.root_⟩ := by
    rw [hscope]
    exact h.root_entry
  simp only [outermostScope, hrow, hscope, ite_true]

/-- Following the links upwards ends at root within as many steps as there are elements: the
elements `seen` so far are all different and below the current one. -/
theorem ConsistentBut.outermostScope_eq {t : Table PID Obj} (h : ConsistentBut [] t)
    (hup : ReflTransGen t.ScopeLink id t.root_.getID) (seen : Finset PID)
    (hseen : ∀ x ∈ seen, x ≠ t.root_.getID ∧ t.contains x ∧ TransGen t.ScopeLink x id) {steps : Nat}
    (hsteps : t.size ≤ steps + seen.card) (scope : PlacementMO PID Obj) (hscope : scope.getID = id) :
    ∃ root, t.outermostScope steps scope = some root ∧ root.getID = t.root_.getID := by
  have hroom : ∀ elements : Finset PID, (∀ x ∈ elements, x ≠ t.root_.getID ∧ t.contains x) →
      elements.card < t.size := by
    intro elements helements
    have hsub : elements ⊆ (t.scopeTab_.map Prod.snd).toFinset := by
      intro x hx
      exact mem_toFinset.mpr (h.mem_members.mpr (helements x hx))
    have hcard := Finset.card_le_card hsub
    rw [toFinset_card_of_nodup h.members_nodup, length_map] at hcard
    have hsize := h.size_eq
    omega
  induction hup using ReflTransGen.head_induction_on generalizing seen steps scope with
  | refl =>
    have hcard := hroom seen fun x hx => ⟨(hseen x hx).1, (hseen x hx).2.1⟩
    obtain ⟨steps, rfl⟩ : ∃ n, steps = n + 1 := ⟨steps - 1, by omega⟩
    exact ⟨scope, outermostScope_root h steps hscope, hscope⟩
  | @head a b hlink hrest ih =>
    have hcard := hroom seen fun x hx => ⟨(hseen x hx).1, (hseen x hx).2.1⟩
    obtain ⟨steps, rfl⟩ : ∃ n, steps = n + 1 := ⟨steps - 1, by omega⟩
    obtain ⟨entry, hrow, hentry⟩ := hlink
    have hlink : t.ScopeLink a b := ⟨entry, hrow, hentry⟩
    by_cases hroot : a = t.root_.getID
    · have hscope : scope.getID = t.root_.getID := hscope.trans hroot
      exact ⟨scope, outermostScope_root h steps hscope, hscope⟩
    · subst hscope
      have hacyclic := h.acyclic hroot hlink
      have hne : b ≠ scope.getID := fun heq => hacyclic (by rw [heq])
      have hunseen : scope.getID ∉ seen := by
        intro ha
        obtain ⟨y, hy, hback⟩ := TransGen.head'_iff.mp (hseen _ ha).2.2
        rw [hlink.unique hy] at hacyclic
        exact hacyclic hback
      have hgrown : ∀ x ∈ insert scope.getID seen,
          x ≠ t.root_.getID ∧ t.contains x ∧ TransGen t.ScopeLink x b := by
        intro x hx
        rcases Finset.mem_insert.mp hx with rfl | hx
        · exact ⟨hroot, hlink.contains, .single hlink⟩
        · obtain ⟨hxroot, hxknown, hbelow⟩ := hseen x hx
          exact ⟨hxroot, hxknown, hbelow.tail hlink⟩
      have hfewer : t.size ≤ steps + (insert scope.getID seen).card := by
        rw [Finset.card_insert_of_notMem hunseen]
        omega
      obtain ⟨root, hclimb, hid⟩ := ih (insert scope.getID seen) hgrown hfewer entry.scope hentry
      refine ⟨root, ?_, hid⟩
      simp only [outermostScope, hrow, hentry, hne, ite_false, hclimb]

/-- A consistent index passes its self-check. -/
theorem ConsistentBut.isValid {t : Table PID Obj} (h : ConsistentBut [] t) : t.isValid := by
  have hentries : t.placementTab_.keys.all t.checkEntry := by
    rw [all_eq_true]
    intro id hid
    obtain ⟨entry, hrow⟩ := contains_iff.mp (mem_keys.mp hid)
    obtain ⟨scope, hscope, -⟩ := h.scope_known id entry hrow
    have hknown : t.contains entry.scope.getID := contains_iff.mpr ⟨scope, hscope⟩
    have hid_eq := h.entry_id id entry hrow
    by_cases hroot : id = t.root_.getID
    · subst hroot
      simp [checkEntry, h.root_entry, h.contains_root]
    · have hlisted := (h.registered entry.scope.getID id).mpr ⟨hroot, by simp, entry, hrow, rfl⟩
      simp [checkEntry, hrow, hid_eq, hknown, mem_children, hlisted]
  have hscopes : (t.scopeTab_.map Prod.fst).all t.checkScope := by
    rw [all_eq_true]
    intro id hid
    obtain ⟨⟨scope, child⟩, hpair, rfl⟩ := mem_map.mp hid
    have hknown := h.contains_scope ((h.registered scope child).mp hpair).2.2
    obtain ⟨entry, hrow⟩ := contains_iff.mp hknown
    have hlink : t.ScopeLink scope entry.scope.getID := ⟨entry, hrow, rfl⟩
    obtain ⟨root, hclimb, hroot⟩ : ∃ root, t.outermostScope t.size entry.scope = some root ∧
        root.getID = t.root_.getID :=
      h.outermostScope_eq (h.attached _ (h.contains_scope hlink)) ∅ (by simp)
        (by simp only [Finset.card_empty, Nat.add_zero, le_refl]) entry.scope rfl
    have hmembers : (t.children scope).all (t.checkScopeEntry scope) := by
      rw [all_eq_true]
      intro x hx
      obtain ⟨-, -, row, hx, hscope⟩ := (h.registered scope x).mp (mem_children.mp hx)
      simp [checkScopeEntry, hx, hscope]
    simp only [checkScope, hrow, hclimb, hroot, hmembers, beq_self_eq_true, Bool.and_self]
  simp [Table.isValid, hentries, hscopes, h.size_eq]

end Table

/-! ## Runs of the index -/

namespace PlacementIndex

variable {PID : Type u} {Obj : Type v} [DecidableEq PID]

open Table

/-- What the calls rely on: a copied Placement has a new identity, and the hash table is merely
reordered by a rehash. -/
def Admissible (t : Table PID Obj) : Call PID Obj → Prop
  | .insert _ _ newID => ¬ t.contains newID
  | .rehash scopeTab => scopeTab.Perm t.scopeTab_
  | _ => True

/-- **Every admissible call is completed** without a failing assertion, and leaves a consistent
index. -/
theorem perform_spec {t : Table PID Obj} (h : ConsistentBut [] t) (call : Call PID Obj)
    (hcall : Admissible t call) : ∃ t', perform t call = some t' ∧ ConsistentBut [] t' := by
  have hrootElement : t.getRootElement = some t.root_ := by
    simp [getRootElement, h.contains_root]
  cases call with
  | insert newObj targetScope newID =>
    by_cases hscope : t.contains targetScope
    · obtain ⟨t', hadd, h'⟩ := addEntry_spec h newObj hscope hcall
      exact ⟨t', by simp [perform, insert, hscope, hadd], h'⟩
    · exact ⟨t, by simp [perform, insert, hscope], h⟩
  | remove id =>
    by_cases hroot : id = t.root_.getID
    · exact ⟨t, by simp [perform, remove, hrootElement, hroot], h⟩
    · obtain ⟨result, t', hrem, h', -⟩ := removeEntry_spec h hroot
      exact ⟨t', by simp [perform, remove, hrootElement, hroot, hrem], h'⟩
  | clearScope targetScope newRootID =>
    by_cases hroot : targetScope = t.root_.getID
    · obtain ⟨t', hclear, h'⟩ := clear_spec t newRootID
      exact ⟨t', by simp [perform, clearScope, hrootElement, hroot, hclear, h'.isValid], h'⟩
    · obtain ⟨result, t', hrem, h'⟩ := removeAll_spec h hroot
      refine ⟨t', ?_, h'⟩
      cases result with
      | error raised => simp [perform, clearScope, hrootElement, hroot, hrem, Except.map]
      | ok removed =>
        simp [perform, clearScope, hrootElement, hroot, hrem, Except.map, h'.isValid]
  | clear newRootID => exact clear_spec t newRootID
  | rehash scopeTab => exact ⟨_, if_pos hcall, h.rehash hcall⟩

theorem admissible_of_perform {t t' : Table PID Obj} {call : Call PID Obj}
    (hstep : perform t call = some t') : Admissible t call ∨ t' = t := by
  cases call with
  | insert newObj targetScope newID =>
    by_cases hscope : t.contains targetScope
    · obtain ⟨entry, hrow⟩ := contains_iff.mp hscope
      refine .inl fun hold => ?_
      simp [perform, insert, hscope, addEntry, hrow, hold] at hstep
    · refine .inr ?_
      simpa [perform, insert, hscope, eq_comm] using hstep
  | remove id => exact .inl trivial
  | clearScope targetScope newRootID => exact .inl trivial
  | clear newRootID => exact .inl trivial
  | rehash scopeTab =>
    refine .inl ?_
    by_contra hperm
    have hperm : ¬ scopeTab.Perm t.scopeTab_ := hperm
    simp [perform, hperm] at hstep

theorem step_consistentBut {t t' : Table PID Obj} {call : Call PID Obj} (h : ConsistentBut [] t)
    (hstep : perform t call = some t') : ConsistentBut [] t' := by
  rcases admissible_of_perform hstep with hcall | rfl
  · obtain ⟨u, hu, hcons⟩ := perform_spec h call hcall
    rw [hstep] at hu
    rwa [Option.some.inj hu]
  · exact h

theorem invariant_consistentBut : (machine PID Obj).Invariant (ConsistentBut []) where
  init t := by
    rintro ⟨rootDef, rootID, hinit⟩
    obtain ⟨u, hu, hcons⟩ := setupRoot_spec (t := (⟨∅, [], rootDef⟩ : Table PID Obj)) rfl rfl
      rootDef rootID
    rw [construct, hu] at hinit
    rwa [← Option.some.inj hinit]
  step _ _ _ h hstep := step_consistentBut h hstep

/-- **Consistency of the index**: whatever the calls were, and whether or not they raised, the two
tables are inverse to each other, every element reaches root, and the size counts the elements of
the tree; the index passes its self-check, and the next admissible call is completed as well. -/
theorem consistent (t : Table PID Obj) (ht : (machine PID Obj).Reachable t) :
    Consistent t ∧ t.isValid ∧ ∀ call, Admissible t call → ∃ t', perform t call = some t' := by
  have h := invariant_consistentBut.reachable ht
  refine ⟨h.toConsistent, h.isValid, fun call hcall => ?_⟩
  obtain ⟨t', hstep, -⟩ := perform_spec h call hcall
  exact ⟨t', hstep⟩

/-- Calls which nest three elements, are refused twice, and kill a scope with its contents. -/
def exampleCalls : List (Call Nat Nat) :=
  [.insert ⟨7, 70⟩ 0 1, .insert ⟨7, 70⟩ 1 2, .insert ⟨7, 70⟩ 0 3, .insert ⟨7, 70⟩ 9 4,
    .remove 1, .clearScope 1 5]

theorem consistent_nested : ∃ t : Table Nat Nat, (machine Nat Nat).Reachable t ∧ PlacementIndex.size t = 1 ∧
    Consistent t ∧ t.isValid ∧ ∀ call, Admissible t call → ∃ t', perform t call = some t' := by
  let start : Table Nat Nat := ⟨AList.singleton 0 ⟨⟨0, 80⟩, ⟨0, 80⟩⟩, [], ⟨0, 80⟩⟩
  let final : Table Nat Nat :=
    { start with
      placementTab_ := start.placementTab_.insert 3 ⟨⟨3, 70⟩, ⟨0, 80⟩⟩
      scopeTab_ := [(0, 3)] }
  have hinit : construct ⟨8, 80⟩ 0 = some start := rfl
  have hrun : Machine.exec perform start exampleCalls = some final := rfl
  have hcalls : (Machine.ofFun start perform).Run start exampleCalls final :=
    Machine.run_ofFun_iff.mpr hrun
  have hsteps : ∀ s call t, (Machine.ofFun start perform).step s call t →
      (machine Nat Nat).step s call t := fun _ _ _ h => h
  have hreach : (machine Nat Nat).Reachable final :=
    ⟨start, exampleCalls, ⟨_, _, hinit⟩, hcalls.mono hsteps⟩
  exact ⟨final, hreach, rfl, consistent final hreach⟩

end PlacementIndex

end Lumiera.Steam.MObject.Session
