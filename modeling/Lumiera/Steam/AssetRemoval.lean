import Lumiera.Steam.AssetManager

/-! # Removing assets

Each dependant removed is erased from the very vector which is traversed, so that the remaining entries
move to the front: the entry following the one just visited is skipped, and finally the iterator refers to
a position behind the last entry. Hence the traversal succeeds for a single dependant only. -/

namespace Lumiera.Steam

open List

universe u v

open Relation

/-! ## Traversing a vector while it is changed -/

section Traversal

variable {α : Type u} {σ : Type v} {coll : σ → List α} {doIt : α → σ → Except Failure σ} {s s' : σ}
  {todo pos : Nat}

theorem forEachFrom_succ (hres : forEachFrom coll doIt (todo + 1) pos s = .ok s') :
    ∃ elm s₁, (coll s)[pos]? = some elm ∧ doIt elm s = .ok s₁ ∧
      forEachFrom coll doIt todo (pos + 1) s₁ = .ok s' := by
  rw [forEachFrom] at hres
  split at hres
  · cases hres
  · rename_i elm helm
    split at hres
    · cases hres
    · rename_i s₁ hs₁
      exact ⟨elm, s₁, helm, hs₁, hres⟩

/-- A traversal of a vector which shrinks on each visit gets to the end only if it is short enough. -/
theorem forEachFrom_shrinking {Inv : σ → Prop}
    (hstep : ∀ x s s', Inv s → x ∈ coll s → doIt x s = .ok s' →
      Inv s' ∧ (coll s').length < (coll s).length)
    (hinv : Inv s) (htodo : 0 < todo) (hres : forEachFrom coll doIt todo pos s = .ok s') :
    pos + 2 * todo ≤ (coll s).length + 1 := by
  induction todo generalizing pos s with
  | zero => exact absurd htodo (lt_irrefl 0)
  | succ todo ih =>
    obtain ⟨elm, s₁, helm, hs₁, hrest⟩ := forEachFrom_succ hres
    have hpos : pos < (coll s).length := (List.getElem?_eq_some_iff.mp helm).1
    obtain ⟨hinv₁, hless⟩ := hstep elm s s₁ hinv (mem_of_getElem? helm) hs₁
    rcases Nat.eq_zero_or_pos todo with rfl | hmore
    · omega
    · have := ih hinv₁ hmore hrest
      omega

theorem forEach_shrinking (coll : σ → List α) {Inv : σ → Prop}
    (hstep : ∀ x s s', Inv s → x ∈ coll s → doIt x s = .ok s' →
      Inv s' ∧ (coll s').length < (coll s).length)
    (hinv : Inv s) (hres : forEach coll doIt s = .ok s') : (coll s).length ≤ 1 := by
  rcases Nat.eq_zero_or_pos (coll s).length with hzero | hpos
  · omega
  · have := forEachFrom_shrinking hstep hinv hpos hres
    omega

/-- A traversal of a vector which is not changed, with an invariant on the entries visited so far. -/
theorem forEachFrom_unchanged {xs : List α} {Inv : List α → σ → Prop}
    (hstep : ∀ x ∈ xs, ∀ before s, Inv before s → coll s = xs →
      ∃ s', doIt x s = .ok s' ∧ coll s' = xs ∧ Inv (before ++ [x]) s')
    {before after : List α} (hxs : xs = before ++ after) (hcoll : coll s = xs) (hinv : Inv before s) :
    ∃ s', forEachFrom coll doIt after.length before.length s = .ok s' ∧ Inv xs s' := by
  induction after generalizing before s with
  | nil =>
    rw [append_nil] at hxs
    exact ⟨s, rfl, hxs ▸ hinv⟩
  | cons x after ih =>
    have hmem : x ∈ xs := by
      rw [hxs]
      exact mem_append_right _ mem_cons_self
    obtain ⟨s₁, hs₁, hcoll₁, hinv₁⟩ := hstep x hmem before s hinv hcoll
    have hxs' : xs = (before ++ [x]) ++ after := by
      rw [hxs, append_assoc, singleton_append]
    obtain ⟨s', hs', hinv'⟩ := ih hxs' hcoll₁ hinv₁
    refine ⟨s', ?_, hinv'⟩
    have helm : (coll s)[before.length]? = some x := by
      rw [hcoll, hxs, getElem?_append_right (le_refl _), Nat.sub_self]
      rfl
    rw [length_append, length_singleton] at hs'
    rw [length_cons, forEachFrom, helm]
    simp only [hs₁, hs']

theorem forEach_unchanged (coll : σ → List α) (doIt : α → σ → Except Failure σ)
    (Inv : List α → σ → Prop)
    (hstep : ∀ x ∈ coll s, ∀ before s', Inv before s' → coll s' = coll s →
      ∃ s'', doIt x s' = .ok s'' ∧ coll s'' = coll s ∧ Inv (before ++ [x]) s'')
    (hinv : Inv [] s) : ∃ s', forEach coll doIt s = .ok s' ∧ Inv (coll s) s' :=
  forEachFrom_unchanged hstep (nil_append _).symm rfl hinv

theorem forEach_nil (coll : σ → List α) (doIt : α → σ → Except Failure σ) (h : coll s = []) :
    forEach coll doIt s = .ok s := by
  rw [forEach, h]
  rfl

theorem forEach_singleton (coll : σ → List α) (doIt : α → σ → Except Failure σ) {x : α}
    (h : coll s = [x]) : forEach coll doIt s = doIt x s := by
  rw [forEach, h, length_singleton, forEachFrom, h]
  simp only [getElem?_cons_zero]
  cases doIt x s <;> rfl

end Traversal

namespace DB

variable {ID : Type u} [DecidableEq ID] {db db₁ db₂ db' : DB ID} {id a c p : ID} {fuel : Nat}

/-! ## Unlinking -/

/-- The links to an asset are dropped at some of the other assets. -/
structure Unlinked (db : DB ID) (id : ID) (at_ : ID → Prop) (db' : DB ID) : Prop where
  registered : db'.registered = db.registered
  visited : db'.visited = db.visited
  dropped : ∀ a, at_ a → db'.assets a =
    ⟨removeall (db.assets a).parents id, removeall (db.assets a).dependants id⟩
  kept : ∀ a, ¬ at_ a → db'.assets a = db.assets a

theorem removeall_of_notMem {coll : List ID} (h : id ∉ coll) : removeall coll id = coll := by
  refine filter_eq_self.mpr fun x hx => decide_eq_true ?_
  rintro rfl
  exact h hx

theorem removeall_idem {coll : List ID} : removeall (removeall coll id) id = removeall coll id := by
  simp only [removeall, filter_filter, Bool.and_self]

theorem unlinkTarget_spec {at_ : ID → Prop} (h : db.Unlinked id at_ db₁) (hid : id ∈ db.registered) :
    ∃ db₂, db₁.unlinkTarget p id = .ok db₂ ∧ db.Unlinked id (fun a => at_ a ∨ a = p) db₂ := by
  refine ⟨_, if_pos (h.registered ▸ hid), h.registered, h.visited, ?_, ?_⟩
  · intro a ha
    rw [setAsset_assets]
    by_cases heq : a = p
    · subst heq
      rw [if_pos rfl]
      by_cases hat : at_ a
      · rw [h.dropped a hat, removeall_idem, removeall_idem]
      · rw [h.kept a hat]
    · rw [if_neg heq]
      exact h.dropped a (ha.resolve_right heq)
  · intro a ha
    rw [setAsset_assets, if_neg fun heq => ha (.inr heq)]
    exact h.kept a fun hat => ha (.inl hat)

omit [DecidableEq ID] in
theorem IsDAG.not_parent (h : db.IsDAG) (hid : id ∈ db.registered) : id ∉ (db.assets id).parents :=
  fun hmem => h.acyclic id (.single ⟨hid, (h.linked id hid id hid).mpr hmem⟩)

/-- Unlinking an asset removes it from the vectors of dependants. -/
theorem unlink_spec (h : db.IsDAG) (hid : id ∈ db.registered) :
    ∃ db', db.unlink id = .ok db' ∧ db'.registered = db.registered ∧ db'.visited = db.visited ∧
      ∀ a ∈ db.registered, a ≠ id →
        db'.assets a = ⟨(db.assets a).parents, removeall (db.assets a).dependants id⟩ := by
  have hself : id ∉ (db.assets id).parents := h.not_parent hid
  obtain ⟨db₁, hloop, hdb₁, -⟩ := forEach_unchanged (fun db : DB ID => (db.assets id).parents)
    (fun parent db => db.unlinkTarget parent id)
    (fun before db₁ => db.Unlinked id (· ∈ before) db₁ ∧ ∀ x ∈ before, x ∈ (db.assets id).parents)
    (s := db) (fun p hp before db₁ ⟨hdb₁, hbefore⟩ _ => by
      obtain ⟨db₂, hres, hdb₂⟩ := unlinkTarget_spec (p := p) hdb₁ hid
      have hbefore' : ∀ x ∈ before ++ [p], x ∈ (db.assets id).parents := by
        intro x hx
        rcases mem_append.mp hx with hx | hx
        · exact hbefore x hx
        · exact mem_singleton.mp hx ▸ hp
      have hmem : (fun a => a ∈ before ∨ a = p) = (· ∈ before ++ [p]) := by
        funext a
        rw [mem_append, mem_singleton]
      rw [hmem] at hdb₂
      exact ⟨db₂, hres, by rw [hdb₂.kept id fun hid => hself (hbefore' id hid)], hdb₂, hbefore'⟩)
    ⟨⟨rfl, rfl, nofun, fun _ _ => rfl⟩, nofun⟩
  refine ⟨db₁.setAsset id _, by rw [unlink, hloop], hdb₁.registered, hdb₁.visited, ?_⟩
  intro a ha hne
  rw [setAsset_assets, if_neg hne]
  by_cases hparent : a ∈ (db.assets id).parents
  · -- a parent does not depend on the asset
    have hup : id ∉ (db.assets a).parents := fun hmem =>
      h.acyclic id (.head ⟨hid, (h.linked id hid a ha).mpr hmem⟩
        (.single ⟨ha, (h.linked a ha id hid).mpr hparent⟩))
    rw [hdb₁.dropped a hparent, removeall_of_notMem hup]
  · have hdown : id ∉ (db.assets a).dependants := by
      rwa [h.linked a ha id hid]
    rw [hdb₁.kept a hparent, removeall_of_notMem hdown]

/-! ## Removal -/

/-- **The dependants are removed**, but the asset itself is not yet. -/
structure Detached (db : DB ID) (id : ID) (db₁ : DB ID) : Prop where
  registered : ∀ a, a ∈ db₁.registered ↔ a ∈ db.registered ∧ (db.Closure id a → a = id)
  dependants : ∀ a ∈ db₁.registered,
    (db₁.assets a).dependants = (db.assets a).dependants.filter (· ∈ db₁.registered)
  parents : ∀ a ∈ db₁.registered, (db₁.assets a).parents = (db.assets a).parents
  visited : ∃ log, db₁.visited = db.visited ++ log ∧
    (∀ a, db.Closure id a → visitedOf log a = (db.assets a).dependants) ∧
    ∀ a, ¬ db.Closure id a → visitedOf log a = []

theorem Detached.remains (h : db.Detached id db₁) (hdag : db.IsDAG) : db.Remains db₁ where
  subset a ha := ((h.registered a).mp ha).1
  upward c hc p hp := by
    obtain ⟨hc', hkept⟩ := (h.registered c).mp hc
    have hp' := hdag.parents c hc' p hp
    have hdep : db.DependsOn p c := ⟨hp', (hdag.linked p hp' c hc').mpr hp⟩
    refine (h.registered p).mpr ⟨hp', fun hclosure => ?_⟩
    -- otherwise the asset would depend on itself
    have heq : c = id := hkept (hclosure.tail hdep)
    subst heq
    exact absurd (TransGen.tail' hclosure hdep) (hdag.acyclic c)
  dependants := h.dependants
  parents := h.parents

/-- Unlinking and deregistering the asset completes the removal. -/
theorem Detached.removed (h : db.Detached id db₁) (hdag : db.IsDAG) (hid : id ∈ db.registered) :
    ∃ db₂, db₁.unlink id = .ok db₂ ∧
      db.Removed id { db₂ with registered := db₂.registered.erase id } := by
  have hdag₁ := (h.remains hdag).isDAG hdag
  have hid₁ : id ∈ db₁.registered := (h.registered id).mpr ⟨hid, fun _ => rfl⟩
  obtain ⟨db₂, hunlink, hreg, hvisited, hassets⟩ := unlink_spec hdag₁ hid₁
  have hmem : ∀ a, a ∈ db₂.registered.erase id ↔ a ∈ db₁.registered ∧ a ≠ id := by
    intro a
    rw [Finset.mem_erase, hreg, and_comm]
  refine ⟨db₂, hunlink, ?_, ?_, ?_, ?_⟩
  · intro a
    rw [hmem, h.registered]
    constructor
    · rintro ⟨⟨ha, honly⟩, hne⟩
      exact ⟨ha, fun hclosure => hne (honly hclosure)⟩
    · rintro ⟨ha, hnot⟩
      refine ⟨⟨ha, fun hclosure => absurd hclosure hnot⟩, ?_⟩
      rintro rfl
      exact hnot .refl
  · intro a ha
    obtain ⟨ha₁, hne⟩ := (hmem a).mp ha
    rw [hassets a ha₁ hne]
    rw [h.dependants a ha₁, removeall, filter_filter]
    refine filter_congr fun x _ => ?_
    rw [Bool.eq_iff_iff, Bool.and_eq_true, decide_eq_true_iff, decide_eq_true_iff,
      decide_eq_true_iff, hmem, and_comm]
  · intro a ha
    obtain ⟨ha₁, hne⟩ := (hmem a).mp ha
    rw [hassets a ha₁ hne]
    exact h.parents a ha₁
  · obtain ⟨log, hlog, hin, hout⟩ := h.visited
    exact ⟨log, hvisited.trans hlog, hin, hout⟩

theorem detached_nil (hnone : (db.assets id).dependants = []) (hdag : db.IsDAG) : db.Detached id db := by
  have honly : ∀ a, db.Closure id a → a = id := by
    intro a hclosure
    rcases closure_iff.mp hclosure with heq | ⟨c, ⟨-, hc⟩, -⟩
    · exact heq
    · rw [hnone] at hc
      cases hc
  refine ⟨fun a => ⟨fun ha => ⟨ha, honly a⟩, And.left⟩, ?_, fun _ _ => rfl, [], ?_, ?_, fun _ _ => rfl⟩
  · intro a ha
    exact (filter_eq_self.mpr fun x hx => decide_eq_true (hdag.dependants a ha x hx)).symm
  · exact (append_nil _).symm
  · intro a hclosure
    rw [honly a hclosure, hnone]
    rfl

/-- A single dependant is visited, and removed with everything depending on it. -/
theorem detached_singleton (hid : id ∈ db.registered) (hsingle : (db.assets id).dependants = [c])
    (hdag : db.IsDAG) (h : (db.visit id c).Removed c db₁) : db.Detached id db₁ := by
  have hdep : db.DependsOn id c := ⟨hid, hsingle ▸ mem_singleton_self c⟩
  have hclosure : ∀ a, db.Closure id a ↔ a = id ∨ db.Closure c a := by
    intro a
    rw [closure_iff]
    refine or_congr_right ⟨?_, fun ha => ⟨c, hdep, ha⟩⟩
    rintro ⟨c', ⟨-, hc'⟩, ha⟩
    rw [hsingle, mem_singleton] at hc'
    exact hc' ▸ ha
  have hnot : ¬ db.Closure c id := hdag.not_closure hdep
  refine ⟨?_, h.dependants, h.parents, ?_⟩
  · intro a
    rw [h.registered a]
    refine and_congr_right fun _ => ?_
    rw [hclosure]
    constructor
    · rintro hkept (heq | hbelow)
      · exact heq
      · exact absurd hbelow hkept
    · rintro honly hbelow
      have hbelow' : db.Closure c a := hbelow
      rw [honly (.inr hbelow')] at hbelow'
      exact hnot hbelow'
  · obtain ⟨log, hlog, hin, hout⟩ := h.visited
    have hsplit : ∀ a, visitedOf ((id, c) :: log) a =
        (if id = a then [c] else []) ++ visitedOf log a := by
      intro a
      unfold visitedOf
      split_ifs <;> simp_all
    refine ⟨(id, c) :: log, ?_, ?_, ?_⟩
    · rw [hlog, visit, append_assoc, singleton_append]
    · intro a ha
      rw [hsplit]
      rcases (hclosure a).mp ha with rfl | hbelow
      · rw [if_pos rfl, hout a hnot, hsingle]
        rfl
      · have hne : id ≠ a := by
          rintro rfl
          exact hnot hbelow
        rw [if_neg hne]
        exact hin a hbelow
    · intro a ha
      rw [hclosure, not_or] at ha
      rw [hsplit, if_neg fun heq => ha.1 heq.symm]
      exact hout a ha.2

theorem remove_succ (hres : remove (fuel + 1) id db = .ok db') :
    id ∈ db.registered ∧ ∃ db₁ db₂,
      forEach (fun db => (db.assets id).dependants)
        (fun child db => remove fuel child (db.visit id child)) db = .ok db₁ ∧
      db₁.unlink id = .ok db₂ ∧ db' = { db₂ with registered := db₂.registered.erase id } := by
  rw [remove] at hres
  split at hres
  · rename_i hid
    split at hres
    · cases hres
    · rename_i db₁ hloop
      split at hres
      · cases hres
      · rename_i db₂ hunlink
        cases hres
        exact ⟨hid, db₁, db₂, hloop, hunlink, rfl⟩
  · cases hres

theorem remove_of_stages (hid : id ∈ db.registered)
    (hloop : forEach (fun db => (db.assets id).dependants)
      (fun child db => remove fuel child (db.visit id child)) db = .ok db₁)
    (hunlink : db₁.unlink id = .ok db₂) :
    remove (fuel + 1) id db = .ok { db₂ with registered := db₂.registered.erase id } := by
  rw [remove, if_pos hid, hloop]
  simp only [hunlink]

omit [DecidableEq ID] in
theorem IsDAG.visit (h : db.IsDAG) : (db.visit id c).IsDAG :=
  ⟨h.dependants, h.parents, h.linked, h.nodup, h.acyclic⟩

/-- The transitive dependants each have a single dependant at most. -/
def IsChain (db : DB ID) (id : ID) : Prop :=
  ∀ a, db.Closure id a → (db.assets a).dependants.length ≤ 1

/-- Whenever removal succeeds, the asset is removed, and all dependants formed a chain. -/
theorem remove_spec (hdag : db.IsDAG) (hres : remove fuel id db = .ok db') : db.IsChain id ∧ db.Removed id db' := by
  induction fuel generalizing id db db' with
  | zero => cases hres
  | succ fuel ih =>
    obtain ⟨hid, db₁, db₂, hloop, hunlink, rfl⟩ := remove_succ hres
    -- each dependant removed is erased from the vector traversed
    have hshrinks : ∀ x (s s' : DB ID), s.IsDAG ∧ id ∈ s.registered → x ∈ (s.assets id).dependants →
        remove fuel x (s.visit id x) = .ok s' → (s'.IsDAG ∧ id ∈ s'.registered) ∧
          (s'.assets id).dependants.length < (s.assets id).dependants.length := by
      rintro x s s' ⟨hdags, hids⟩ hx hremove
      have hremoved := (ih hdags.visit hremove).2
      have hvisit := hremoved.remains hdags.visit
      have hremains : s.Remains s' :=
        ⟨hvisit.subset, hvisit.upward, hvisit.dependants, hvisit.parents⟩
      have hids' : id ∈ s'.registered :=
        (hremoved.registered id).mpr ⟨hids, hdags.not_closure ⟨hids, hx⟩⟩
      refine ⟨⟨hremains.isDAG hdags, hids'⟩, ?_⟩
      have hgone : x ∉ s'.registered := fun hx' => ((hremoved.registered x).mp hx').2 .refl
      rw [hremains.dependants id hids']
      refine length_filter_lt_length_iff_exists.mpr ⟨x, hx, ?_⟩
      simpa using hgone
    have hlength : (db.assets id).dependants.length ≤ 1 :=
      forEach_shrinking (fun db : DB ID => (db.assets id).dependants) hshrinks ⟨hdag, hid⟩ hloop
    have hdetached : db.Detached id db₁ ∧ ∀ a, db.Closure id a →
        (db.assets a).dependants.length ≤ 1 := by
      match hdeps : (db.assets id).dependants with
      | [] =>
        rw [forEach_nil (fun db : DB ID => (db.assets id).dependants) _ hdeps] at hloop
        cases hloop
        refine ⟨detached_nil hdeps hdag, fun a ha => ?_⟩
        rcases closure_iff.mp ha with rfl | ⟨x, ⟨-, hx⟩, -⟩
        · exact hlength
        · rw [hdeps] at hx
          cases hx
      | [c] =>
        rw [forEach_singleton (fun db : DB ID => (db.assets id).dependants) _ hdeps] at hloop
        obtain ⟨hchain, hremoved⟩ := ih hdag.visit hloop
        refine ⟨detached_singleton hid hdeps hdag hremoved, fun a ha => ?_⟩
        rcases closure_iff.mp ha with rfl | ⟨x, ⟨-, hx⟩, hbelow⟩
        · exact hlength
        · rw [hdeps, mem_singleton] at hx
          exact hchain a (hx ▸ hbelow)
      | c :: c' :: rest =>
        rw [hdeps] at hlength
        exact absurd hlength (by simp)
    obtain ⟨db₃, hunlink', hremoved⟩ := hdetached.1.removed hdag hid
    cases hunlink.symm.trans hunlink'
    exact ⟨hdetached.2, hremoved⟩

/-- Removal succeeds for a chain of dependants. -/
theorem remove_isChain (hdag : db.IsDAG) (hid : id ∈ db.registered) (hchain : db.IsChain id)
    (log : List (ID × ID)) : ∃ fuel db', remove fuel id { db with visited := log } = .ok db' := by
  induction id using hdag.wellFounded.induction generalizing log with
  | _ id ih =>
    have hdag' : ({ db with visited := log } : DB ID).IsDAG :=
      ⟨hdag.dependants, hdag.parents, hdag.linked, hdag.nodup, hdag.acyclic⟩
    have hlength := hchain id .refl
    match hdeps : (({ db with visited := log } : DB ID).assets id).dependants with
    | [] =>
      have hdetached : DB.Detached { db with visited := log } id _ := detached_nil hdeps hdag'
      obtain ⟨db₂, hunlink, -⟩ := hdetached.removed hdag' hid
      have hloop := forEach_nil (fun db : DB ID => (db.assets id).dependants)
        (fun child db => remove 0 child (db.visit id child)) hdeps
      exact ⟨1, _, remove_of_stages hid hloop hunlink⟩
    | [c] =>
      have hdep : db.DependsOn id c := ⟨hid, hdeps ▸ mem_singleton_self c⟩
      obtain ⟨fuel, db₁, hremove⟩ := ih c hdep (hdag.dependants id hid c hdep.2)
        (fun a ha => hchain a (.head hdep ha)) (log ++ [(id, c)])
      have hremoved := (remove_spec hdag'.visit hremove).2
      have hdetached : DB.Detached { db with visited := log } id db₁ :=
        detached_singleton hid hdeps hdag' hremoved
      obtain ⟨db₂, hunlink, -⟩ := hdetached.removed hdag' hid
      have hloop := forEach_singleton (fun db : DB ID => (db.assets id).dependants)
        (fun child db => remove fuel child (db.visit id child)) hdeps
      exact ⟨fuel + 1, _, remove_of_stages hid (hloop.trans hremove) hunlink⟩
    | c :: c' :: rest =>
      have hlength' : (c :: c' :: rest).length ≤ 1 := hdeps ▸ hlength
      exact absurd hlength' (by simp)

/-- **Removing an asset** works exactly when the dependants form a chain. -/
theorem remove_iff_isChain (hdag : db.IsDAG) (hid : id ∈ db.registered) :
    (∃ fuel db', remove fuel id db = .ok db' ∧ db.Removed id db') ↔ db.IsChain id := by
  constructor
  · rintro ⟨fuel, db', hres, -⟩
    exact (remove_spec hdag hres).1
  · intro hchain
    obtain ⟨fuel, db', hres⟩ := remove_isChain hdag hid hchain db.visited
    exact ⟨fuel, db', hres, (remove_spec hdag hres).2⟩

/-- A parent with the given dependants, created one after the other. -/
def family (children : List Nat) : DB Nat :=
  children.foldl (fun db child => (db.reg child).defineDependency child 0) (empty.reg 0)

theorem family_single_isDAG : (family [1]).IsDAG := by
  have hparent : ((empty : DB Nat).reg 0).IsDAG := isDAG_empty.reg (by decide)
  exact hparent.create (by decide) (by decide)

/-- The parent with a single dependant is removed. -/
theorem remove_single_dependant : ∃ fuel db', remove fuel 0 (family [1]) = .ok db' ∧ (family [1]).Removed 0 db' := by
  refine (remove_iff_isChain family_single_isDAG (by decide)).mpr fun a ha => ?_
  have hmem : a ∈ (family [1]).registered := family_single_isDAG.closure_registered (by decide) ha
  have hall : ∀ a ∈ (family [1]).registered, ((family [1]).assets a).dependants.length ≤ 1 := by
    decide
  exact hall a hmem

/-- **With two dependants** the second one is skipped, and then an entry is read which was erased. -/
theorem not_removed_two_dependants : (family [1, 2]).IsDAG ∧ 0 ∈ (family [1, 2]).registered ∧
    remove 2 0 (family [1, 2]) = .error .invalidEntry ∧ ∀ fuel db', remove fuel 0 (family [1, 2]) ≠ .ok db' := by
  have hdag : (family [1, 2]).IsDAG := family_single_isDAG.create (by decide) (by decide)
  refine ⟨hdag, by decide, rfl, fun fuel db' hres => ?_⟩
  have hlength := (remove_spec hdag hres).1 0 .refl
  exact absurd hlength (by decide)

end DB

end Lumiera.Steam
