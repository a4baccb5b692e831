import Mathlib.Data.Finset.Basic
import Lumiera.Base.Preorder

/-! # Assets and their dependencies (`steam/asset.cpp`, `steam/assetmanager.cpp`)

Assets are registered with the `AssetManager` under an ID, which is the hash of their identity tuple; two
assets are equal when their identity is. Thus an asset is denoted by its ID. Each asset holds a vector of the
parents it depends on and a vector of the assets depending on it. Assets are managed by smart pointers,
so that an asset removed from the registry still exists while it is linked.

Removing an asset traverses the vector of its dependants with `std::for_each`, that is with an iterator and
the end, both taken at the start, while the vector is changed by the very function invoked. An iterator is
modelled by the position it refers to: reading at a position behind the last entry of the vector is
reading an entry which was destroyed. -/

namespace Lumiera.Steam

universe u v

/-- What may go wrong. -/
inductive Failure where
  /-- query for an asset which is not registered -/
  | unknownID
  /-- an entry of a vector is read which does not exist (any more) -/
  | invalidEntry
  /-- the recursion is deeper than the given limit -/
  | depth
  deriving DecidableEq, Repr

/-- The links held by an asset. -/
structure Asset (ID : Type u) where
  parents : List ID
  dependants : List ID
  deriving DecidableEq, Repr

/-- The registry, and all assets existing. The entries visited while removing dependants are noted down
for the statements below, as pairs of an asset and the entry of its vector. -/
structure DB (ID : Type u) where
  registered : Finset ID
  assets : ID → Asset ID
  visited : List (ID × ID)

/-- **Operate on all elements of a vector** (`util::for_each`) which is part of a state changed by the
operation. -/
def forEachFrom {α : Type u} {σ : Type v} (coll : σ → List α) (doIt : α → σ → Except Failure σ) :
    Nat → Nat → σ → Except Failure σ
  | 0, _, s => .ok s
  | todo + 1, pos, s =>
    match (coll s)[pos]? with
    | none => .error .invalidEntry
    | some elm =>
      match doIt elm s with
      | .error failure => .error failure
      | .ok s => forEachFrom coll doIt todo (pos + 1) s

@[inherit_doc forEachFrom]
def forEach {α : Type u} {σ : Type v} (coll : σ → List α) (doIt : α → σ → Except Failure σ) (s : σ) :
    Except Failure σ :=
  forEachFrom coll doIt (coll s).length 0 s

namespace DB

variable {ID : Type u} [DecidableEq ID] (db : DB ID)

/-- Remove all copies of an element. -/
def removeall (coll : List ID) (val : ID) : List ID := coll.filter (· ≠ val)

def setAsset (id : ID) (asset : Asset ID) : DB ID :=
  { db with assets := Function.update db.assets id asset }

theorem setAsset_assets (id : ID) (asset : Asset ID) (x : ID) :
    (db.setAsset id asset).assets x = if x = id then asset else db.assets x :=
  Function.update_apply db.assets id asset x

/-- Drop the links to the given asset. -/
def unlinkTarget (asset target : ID) : Except Failure (DB ID) :=
  if target ∈ db.registered then
    .ok (db.setAsset asset
      ⟨removeall (db.assets asset).parents target, removeall (db.assets asset).dependants target⟩)
  else .error .unknownID

/-- **Release all links to dependent assets**, and advise all parents to drop the link to this asset. -/
def unlink (asset : ID) : Except Failure (DB ID) :=
  match forEach (fun db => (db.assets asset).parents) (fun parent db => db.unlinkTarget parent asset) db with
  | .error failure => .error failure
  | .ok db => .ok (db.setAsset asset { db.assets asset with dependants := [] })

/-- Note down that an entry was visited. -/
def visit (asset child : ID) : DB ID := { db with visited := db.visited ++ [(asset, child)] }

/-- **Remove the given asset** together with all its dependants, up to the given depth of recursion. -/
def remove : Nat → ID → DB ID → Except Failure (DB ID)
  | 0, _, _ => .error .depth
  | fuel + 1, id, db =>
    if id ∈ db.registered then
      match forEach (fun db => (db.assets id).dependants)
        (fun child db => remove fuel child (db.visit id child)) db with
      | .error failure => .error failure
      | .ok db =>
        match db.unlink id with
        | .error failure => .error failure
        | .ok db => .ok { db with registered := db.registered.erase id }
    else .error .unknownID

/-- Register a new asset. -/
def reg (id : ID) : DB ID := { db with registered := insert id db.registered }.setAsset id ⟨[], []⟩

/-- **Declare an asset to depend on the given parent.** -/
def defineDependency (asset parent : ID) : DB ID :=
  let db := db.setAsset asset
    { db.assets asset with parents := (db.assets asset).parents ++ [parent] }
  db.setAsset parent { db.assets parent with dependants := (db.assets parent).dependants ++ [asset] }

end DB

/-! ## The graph of asset dependencies

Links between registered assets are mutual, and without cycles; defining a dependency keeps this as long as
no cycle is closed. Removing an asset is meant to remove it together with all assets depending on it,
directly or not. -/

open List

open Relation

variable {ID : Type u}

namespace DB

variable (db : DB ID)

/-- `DependsOn p c`: the asset `c` is noted as a dependant of the registered asset `p`. -/
def DependsOn (p c : ID) : Prop := p ∈ db.registered ∧ c ∈ (db.assets p).dependants

/-- The asset itself and all its transitive dependants. -/
def Closure (id a : ID) : Prop := ReflTransGen db.DependsOn id a

/-- **The dependency graph** of the registered assets: links are mutual and unique, refer to registered
assets, and there is no cycle. -/
structure IsDAG : Prop where
  dependants : ∀ p ∈ db.registered, ∀ c ∈ (db.assets p).dependants, c ∈ db.registered
  parents : ∀ c ∈ db.registered, ∀ p ∈ (db.assets c).parents, p ∈ db.registered
  linked : ∀ p ∈ db.registered, ∀ c ∈ db.registered,
    (c ∈ (db.assets p).dependants ↔ p ∈ (db.assets c).parents)
  nodup : ∀ p ∈ db.registered, (db.assets p).dependants.Nodup ∧ (db.assets p).parents.Nodup
  acyclic : ∀ a, ¬ TransGen db.DependsOn a a

variable {db} {id a c p : ID}

theorem IsDAG.closure_registered (h : db.IsDAG) (hid : id ∈ db.registered) (ha : db.Closure id a) :
    a ∈ db.registered := by
  induction ha with
  | refl => exact hid
  | tail _ hdep _ => exact h.dependants _ hdep.1 _ hdep.2

theorem IsDAG.not_closure (h : db.IsDAG) (hdep : db.DependsOn id c) : ¬ db.Closure c id := by
  intro hback
  exact h.acyclic id (TransGen.head' hdep hback)

theorem closure_iff : db.Closure id a ↔ a = id ∨ ∃ c, db.DependsOn id c ∧ db.Closure c a := by
  constructor
  · intro ha
    rcases ReflTransGen.cases_head ha with heq | ⟨c, hdep, hrest⟩
    · exact .inl heq.symm
    · exact .inr ⟨c, hdep, hrest⟩
  · rintro (rfl | ⟨c, hdep, hrest⟩)
    · exact .refl
    · exact .head hdep hrest

/-- **Dependency is well-founded**, since the registry is finite: there is an induction from the dependants
to the assets they depend on. -/
theorem IsDAG.wellFounded (h : db.IsDAG) : WellFounded fun c p => db.DependsOn p c := by
  refine wellFounded_of_acyclic (s := db.registered) (fun c p hdep => ⟨?_, hdep.1⟩) fun a hcycle => ?_
  · exact h.dependants p hdep.1 c hdep.2
  · exact h.acyclic a (transGen_swap.mp hcycle)

/-! ## Defining dependencies -/

theorem transGen_defineDependency {asset parent : ID} {r : ID → ID → Prop}
    (hr : ∀ x y, r x y → db.DependsOn x y ∨ x = parent ∧ y = asset) {x y : ID} (hxy : TransGen r x y) :
    TransGen db.DependsOn x y ∨ db.Closure x parent ∧ db.Closure asset y := by
  induction hxy with
  | single hstep =>
    rcases hr _ _ hstep with hdep | ⟨rfl, rfl⟩
    · exact .inl (.single hdep)
    · exact .inr ⟨.refl, .refl⟩
  | tail _ hstep ih =>
    rcases hr _ _ hstep with hdep | ⟨rfl, rfl⟩
    · rcases ih with hold | ⟨hparent, hasset⟩
      · exact .inl (hold.tail hdep)
      · exact .inr ⟨hparent, hasset.tail hdep⟩
    · rcases ih with hold | ⟨hparent, -⟩
      · exact .inr ⟨hold.to_reflTransGen, .refl⟩
      · exact .inr ⟨hparent, .refl⟩

variable [DecidableEq ID]

theorem dependants_defineDependency {asset parent : ID} (x : ID) :
    ((db.defineDependency asset parent).assets x).dependants =
      if x = parent then (db.assets x).dependants ++ [asset] else (db.assets x).dependants := by
  simp only [defineDependency, setAsset_assets]
  split_ifs <;> simp_all

theorem parents_defineDependency {asset parent : ID} (x : ID) :
    ((db.defineDependency asset parent).assets x).parents =
      if x = asset then (db.assets x).parents ++ [parent] else (db.assets x).parents := by
  simp only [defineDependency, setAsset_assets]
  split_ifs <;> simp_all

/-- Defining a dependency keeps the graph, unless it is present already or closes a cycle. -/
theorem IsDAG.defineDependency {asset parent : ID} (h : db.IsDAG) (hasset : asset ∈ db.registered)
    (hparent : parent ∈ db.registered) (hnew : asset ∉ (db.assets parent).dependants)
    (hcycle : ¬ db.Closure asset parent) : (db.defineDependency asset parent).IsDAG where
  dependants p hp c hc := by
    rw [dependants_defineDependency] at hc
    split_ifs at hc with heq
    · rcases mem_append.mp hc with hold | hlast
      · exact h.dependants p hp c hold
      · rw [mem_singleton.mp hlast]
        exact hasset
    · exact h.dependants p hp c hc
  parents c hc p hp := by
    rw [parents_defineDependency] at hp
    split_ifs at hp with heq
    · rcases mem_append.mp hp with hold | hlast
      · exact h.parents c hc p hold
      · rw [mem_singleton.mp hlast]
        exact hparent
    · exact h.parents c hc p hp
  linked p hp c hc := by
    have hold := h.linked p hp c hc
    rw [dependants_defineDependency, parents_defineDependency]
    split_ifs with heq heq' heq'
    · subst heq heq'
      simp
    · simp only [mem_append, mem_singleton, heq', or_false]
      exact hold
    · simp only [mem_append, mem_singleton, heq, or_false]
      exact hold
    · exact hold
  nodup p hp := by
    obtain ⟨hdep, hpar⟩ := h.nodup p hp
    rw [dependants_defineDependency, parents_defineDependency]
    constructor
    · split_ifs with heq
      · subst heq
        exact hdep.append (nodup_singleton _) (disjoint_singleton.mpr hnew)
      · exact hdep
    · split_ifs with heq
      · subst heq
        have hnew' : parent ∉ (db.assets p).parents := by
          rwa [← h.linked parent hparent p hp]
        exact hpar.append (nodup_singleton _) (disjoint_singleton.mpr hnew')
      · exact hpar
  acyclic a hcircle := by
    have hstep : ∀ x y, (db.defineDependency asset parent).DependsOn x y →
        db.DependsOn x y ∨ x = parent ∧ y = asset := by
      rintro x y ⟨hx, hy⟩
      rw [dependants_defineDependency] at hy
      split_ifs at hy with heq
      · rcases mem_append.mp hy with hold | hlast
        · exact .inl ⟨hx, hold⟩
        · exact .inr ⟨heq, mem_singleton.mp hlast⟩
      · exact .inl ⟨hx, hy⟩
    rcases transGen_defineDependency hstep hcircle with hold | ⟨hto, hfrom⟩
    · exact h.acyclic a hold
    · exact hcycle (hfrom.trans hto)

/-- There are no assets. -/
def empty : DB ID := ⟨∅, fun _ => ⟨[], []⟩, []⟩

omit [DecidableEq ID] in
theorem isDAG_empty : (empty : DB ID).IsDAG where
  dependants p hp := absurd hp (Finset.notMem_empty p)
  parents p hp := absurd hp (Finset.notMem_empty p)
  linked p hp := absurd hp (Finset.notMem_empty p)
  nodup p hp := absurd hp (Finset.notMem_empty p)
  acyclic a hcircle := by
    obtain ⟨_, hdep, -⟩ := TransGen.head'_iff.mp hcircle
    exact Finset.notMem_empty a hdep.1

/-- Registering a new asset keeps the graph. -/
theorem IsDAG.reg (h : db.IsDAG) (hnew : id ∉ db.registered) : (db.reg id).IsDAG := by
  have hsame : ∀ a ∈ db.registered, (db.reg id).assets a = db.assets a := by
    intro a ha
    have hne : a ≠ id := by
      rintro rfl
      exact hnew ha
    exact Function.update_of_ne hne _ _
  have hself : (db.reg id).assets id = ⟨[], []⟩ := Function.update_self ..
  have hmem : ∀ a, a ∈ (db.reg id).registered ↔ a = id ∨ a ∈ db.registered :=
    fun a => Finset.mem_insert
  have hdep : ∀ x y, (db.reg id).DependsOn x y → db.DependsOn x y := by
    rintro x y ⟨hx, hy⟩
    rcases (hmem x).mp hx with rfl | hx
    · rw [hself] at hy
      cases hy
    · rw [hsame x hx] at hy
      exact ⟨hx, hy⟩
  refine ⟨?_, ?_, ?_, ?_, ?_⟩
  · intro p hp c hc
    obtain ⟨hp', hc'⟩ := hdep p c ⟨hp, hc⟩
    exact (hmem c).mpr (.inr (h.dependants p hp' c hc'))
  · intro c hc p hp
    rcases (hmem c).mp hc with rfl | hc
    · rw [hself] at hp
      cases hp
    · rw [hsame c hc] at hp
      exact (hmem p).mpr (.inr (h.parents c hc p hp))
  · intro p hp c hc
    rcases (hmem p).mp hp with rfl | hp' <;> rcases (hmem c).mp hc with heq | hc'
    · rw [heq, hself]
    · rw [hself, hsame c hc']
      exact ⟨nofun, fun hlink => absurd (h.parents c hc' p hlink) hnew⟩
    · rw [heq, hself, hsame p hp']
      exact ⟨fun hlink => absurd (h.dependants p hp' id hlink) hnew, nofun⟩
    · rw [hsame p hp', hsame c hc']
      exact h.linked p hp' c hc'
  · intro p hp
    rcases (hmem p).mp hp with rfl | hp
    · rw [hself]
      exact ⟨nodup_nil, nodup_nil⟩
    · rw [hsame p hp]
      exact h.nodup p hp
  · intro a hcircle
    exact h.acyclic a (TransGen.mono hdep a a hcircle)

/-- Creating an asset which depends on an existing one. -/
theorem IsDAG.create (h : db.IsDAG) (hp : p ∈ db.registered) (hnew : id ∉ db.registered) :
    ((db.reg id).defineDependency id p).IsDAG := by
  have hself : (db.reg id).assets id = ⟨[], []⟩ := Function.update_self ..
  have hne : p ≠ id := by
    rintro rfl
    exact hnew hp
  refine (h.reg hnew).defineDependency (Finset.mem_insert_self id _) (Finset.mem_insert_of_mem hp) ?_ ?_
  · have hsame : (db.reg id).assets p = db.assets p := Function.update_of_ne hne _ _
    rw [hsame]
    exact fun hlink => hnew (h.dependants p hp id hlink)
  · intro hclosure
    rcases closure_iff.mp hclosure with heq | ⟨c, ⟨-, hc⟩, -⟩
    · exact hne heq
    · rw [hself] at hc
      cases hc

/-! ## The graph after removal -/

variable (db)

/-- Some assets remain, with all assets they depend on and with the links among them. -/
structure Remains (db' : DB ID) : Prop where
  subset : db'.registered ⊆ db.registered
  upward : ∀ c ∈ db'.registered, ∀ p ∈ (db.assets c).parents, p ∈ db'.registered
  dependants : ∀ a ∈ db'.registered,
    (db'.assets a).dependants = (db.assets a).dependants.filter (· ∈ db'.registered)
  parents : ∀ a ∈ db'.registered, (db'.assets a).parents = (db.assets a).parents

/-- The entries visited with respect to the given asset. -/
def visitedOf (log : List (ID × ID)) (a : ID) : List ID :=
  (log.filter fun entry => entry.1 = a).map Prod.snd

/-- **The asset was removed**: exactly the asset and all its transitive dependants are no longer registered;
what remains has its links, save those to removed assets; and for each asset removed, each entry of its
vector of dependants was visited once. -/
structure Removed (id : ID) (db' : DB ID) : Prop where
  registered : ∀ a, a ∈ db'.registered ↔ a ∈ db.registered ∧ ¬ db.Closure id a
  dependants : ∀ a ∈ db'.registered,
    (db'.assets a).dependants = (db.assets a).dependants.filter (· ∈ db'.registered)
  parents : ∀ a ∈ db'.registered, (db'.assets a).parents = (db.assets a).parents
  visited : ∃ log, db'.visited = db.visited ++ log ∧
    (∀ a, db.Closure id a → visitedOf log a = (db.assets a).dependants) ∧
    ∀ a, ¬ db.Closure id a → visitedOf log a = []

variable {db} {db' : DB ID}

theorem Remains.dependsOn (h : db.Remains db') (hdep : db'.DependsOn p c) : db.DependsOn p c := by
  obtain ⟨hp, hc⟩ := hdep
  rw [h.dependants p hp] at hc
  exact ⟨h.subset hp, (mem_filter.mp hc).1⟩

/-- What remains is such a graph again. -/
theorem Remains.isDAG (h : db.Remains db') (hdag : db.IsDAG) : db'.IsDAG where
  dependants p hp c hc := by
    rw [h.dependants p hp] at hc
    exact of_decide_eq_true (mem_filter.mp hc).2
  parents c hc p hp := by
    rw [h.parents c hc] at hp
    exact h.upward c hc p hp
  linked p hp c hc := by
    rw [h.dependants p hp, h.parents c hc, mem_filter,
      hdag.linked p (h.subset hp) c (h.subset hc)]
    exact and_iff_left (decide_eq_true hc)
  nodup p hp := by
    obtain ⟨hdep, hpar⟩ := hdag.nodup p (h.subset hp)
    rw [h.dependants p hp, h.parents p hp]
    exact ⟨hdep.filter _, hpar⟩
  acyclic a hcircle := hdag.acyclic a (TransGen.mono (fun _ _ hdep => h.dependsOn hdep) a a hcircle)

theorem Removed.remains (h : db.Removed id db') (hdag : db.IsDAG) : db.Remains db' where
  subset a ha := ((h.registered a).mp ha).1
  upward c hc p hp := by
    obtain ⟨hc', hkept⟩ := (h.registered c).mp hc
    have hp' := hdag.parents c hc' p hp
    refine (h.registered p).mpr ⟨hp', fun hclosure => hkept ?_⟩
    exact hclosure.tail ⟨hp', (hdag.linked p hp' c hc').mpr hp⟩
  dependants := h.dependants
  parents := h.parents

end DB

end Lumiera.Steam
