import Lumiera.Common.InterfaceRegistration

/-! # Who removes which interface

Several plugins register and remove interfaces. What they have registered, and have not removed again, is
recorded beside the registry. As long as each descriptor registered differs from the ones registered at this
time, the nodes in the registry are just the ones recorded; then a plugin removes its own nodes and a lookup
finds what the plugins have registered, and each node allocated is either in the registry or freed.

A second descriptor with the same name, version and implementation name is not inserted into the registry, but
this goes unnoticed: its node is neither in the registry nor freed, and when the plugin removes this
descriptor, then the node of the other one is found and freed. -/

namespace Lumiera.Common.Registration

open List

open Lib.Psplay (PSplay Kept)
open SearchTree (TotalOrder)

variable {D P : Type*} [DecidableEq D] [DecidableEq P] (descr : D → InterfaceKey)

/-- **The node is contained** in the registry: it is in the tree which is held by the memory. -/
def Registry.Contains (s : Registry D P) (node : Interfacenode D P) : Prop :=
  ∃ t, LinkedTree.Holds s.interfaceregistry.memory (s.interfaceregistry.memory .root) t ∧
    node ∈ LinkedTree.inorder t

/-- The registry in use by the plugins, with the nodes which were registered and not yet removed by the plugin
which registered them, and with those among them which were the first ones registered with their key. -/
structure Usage (D P : Type*) where
  registry : Registry D P
  owned : List (Interfacenode D P)
  first : List (Interfacenode D P)

namespace Usage

/-! ## Recording the calls -/

/-- No descriptor with the same key is registered at the moment. -/
def Unpublished (self : D) (u : Usage D P) : Prop := ∀ node ∈ u.owned, descr node.interface ≠ descr self

instance (self : D) (u : Usage D P) : Decidable (u.Unpublished descr self) :=
  inferInstanceAs (Decidable (∀ node ∈ u.owned, descr node.interface ≠ descr self))

/-- A plugin registers a descriptor. -/
def register (self : D) (plugin : P) (u : Usage D P) : Option (Usage D P) :=
  let node := u.registry.nextNode self plugin
  (u.registry.register_interface descr self plugin).map fun registry =>
    { registry := registry
      owned := u.owned ++ [node]
      first := u.first ++ if u.Unpublished descr self then [node] else [] }

/-- The node which a plugin has registered for a descriptor. -/
def own (self : D) (plugin : P) (u : Usage D P) : Option (Interfacenode D P) :=
  u.owned.find? fun node => node.interface = self ∧ node.plugin = plugin

/-- A plugin has removed a descriptor, which leaves this registry. -/
def disown (self : D) (plugin : P) (u : Usage D P) (registry : Registry D P) : Usage D P :=
  match u.own self plugin with
  | none => { u with registry := registry }
  | some node => ⟨registry, u.owned.erase node, u.first.erase node⟩

def remove (self : D) (plugin : P) (u : Usage D P) : Option (Usage D P) :=
  (u.registry.remove_interface descr self).map (u.disown self plugin)

def removeListed (self : D) (plugin : P) (u : Usage D P) : Option (Usage D P) :=
  (u.registry.remove_listed descr self).map (u.disown self plugin)

/-- **Perform a call** and record it. -/
def perform (u : Usage D P) : Call D P → Option (Usage D P)
  | .register_interface self plugin => u.register descr self plugin
  | .bulkregister_interfaces self plugin =>
    self.foldlM (fun u interface => u.register descr interface plugin) u
  | .remove_interface self plugin => u.remove descr self plugin
  | .bulkremove_interfaces self plugin =>
    self.foldlM (fun u interface => u.removeListed descr interface plugin) u
  | .interfacenode_find cmp => (u.registry.interfacenode_find descr cmp).map fun (_, registry) =>
    { u with registry := registry }
  | .openClose refcnt => some { u with registry := { u.registry with refcnt := refcnt } }

/-! ## What is required -/

/-- A plugin removes a descriptor which it has registered itself, while it is not in use. -/
def Removable (self : D) (plugin : P) (u : Usage D P) : Prop :=
  ∃ node, u.own self plugin = some node ∧ u.registry.refcnt node = 0

/-- A condition which is met by each step of a loop. -/
def Along (f : Usage D P → D → Option (Usage D P)) (C : Usage D P → D → Prop) : List D → Usage D P → Prop
  | [], _ => True
  | self :: rest, u => C u self ∧ ∀ u' ∈ f u self, Along f C rest u'

instance (self : D) (plugin : P) (u : Usage D P) : Decidable (u.Removable self plugin) :=
  decidable_of_iff (∃ node ∈ u.own self plugin, u.registry.refcnt node = 0) Iff.rfl

instance decidableAlong (f : Usage D P → D → Option (Usage D P)) (C : Usage D P → D → Prop)
    [∀ u self, Decidable (C u self)] : ∀ interfaces u, Decidable (Along f C interfaces u)
  | [], _ => .isTrue trivial
  | self :: rest, u =>
    haveI := decidableAlong f C rest
    inferInstanceAs (Decidable (C u self ∧ ∀ u' ∈ f u self, Along f C rest u'))

/-- **The plugins only remove what is their own.** -/
def Allowed (u : Usage D P) : Call D P → Prop
  | .remove_interface self plugin => u.Removable self plugin
  | .bulkremove_interfaces self plugin =>
    Along (fun u interface => u.removeListed descr interface plugin)
      (fun u interface => u.Removable interface plugin) self u
  | _ => True

/-- **The condition**: a descriptor which is registered has a key which is not in the registry. -/
def Distinct (u : Usage D P) : Call D P → Prop
  | .register_interface self _ => u.Unpublished descr self
  | .bulkregister_interfaces self plugin =>
    Along (fun u interface => u.register descr interface plugin)
      (fun u interface => u.Unpublished descr interface) self u
  | _ => True

instance (u : Usage D P) : ∀ call, Decidable (u.Allowed descr call)
  | .remove_interface self plugin => inferInstanceAs (Decidable (u.Removable self plugin))
  | .bulkremove_interfaces self _ => decidableAlong _ _ self u
  | .register_interface _ _ => .isTrue trivial
  | .bulkregister_interfaces _ _ => .isTrue trivial
  | .interfacenode_find _ => .isTrue trivial
  | .openClose _ => .isTrue trivial

instance (u : Usage D P) : ∀ call, Decidable (u.Distinct descr call)
  | .register_interface self _ => inferInstanceAs (Decidable (u.Unpublished descr self))
  | .bulkregister_interfaces self _ => decidableAlong _ _ self u
  | .remove_interface _ _ => .isTrue trivial
  | .bulkremove_interfaces _ _ => .isTrue trivial
  | .interfacenode_find _ => .isTrue trivial
  | .openClose _ => .isTrue trivial

/-- **What holds at any time**: the descriptor registered first under its key is found; what is found was not
removed by its registrant; a node allocated is either in the registry or freed. -/
structure Proper (u : Usage D P) : Prop where
  found : ∀ node ∈ u.first, ∃ registry,
    u.registry.interfacenode_find descr (descr node.interface) = some (some node, registry)
  present : ∀ cmp node registry, u.registry.interfacenode_find descr cmp = some (some node, registry) →
    node ∈ u.owned ∧ descr node.interface = cmp
  accounted : ∀ node ∈ u.registry.allocated, u.registry.Contains node ↔ node ∉ u.registry.freed

/-- The nodes which are meant to be removed by a call. -/
def Removes (call : Call D P) (node : Interfacenode D P) : Prop :=
  match call with
  | .remove_interface self plugin => node.interface = self ∧ node.plugin = plugin
  | .bulkremove_interfaces self plugin => node.interface ∈ self ∧ node.plugin = plugin
  | _ => False

/-- **The nodes of other descriptors are left alone**: they are neither removed nor freed. -/
structure Leaves (mine : Interfacenode D P → Prop) (u u' : Usage D P) : Prop where
  contained : ∀ node, u.registry.Contains node → ¬ mine node → u'.registry.Contains node
  freed : ∀ node ∈ u'.registry.freed, node ∈ u.registry.freed ∨ mine node

/-- The runs, from an empty registry. -/
def machine (memory : LinkMemory (Interfacenode D P)) (draws : ℕ → ℕ → UInt32) :
    Machine (Usage D P) (Call D P) :=
  .ofFun ⟨.init memory draws, [], []⟩ fun u call => u.perform descr call

end Usage

/-! ## The tree -/

namespace Registry

variable {descr : D → InterfaceKey} {s : Registry D P} {members : Finset (Interfacenode D P)}

/-- **The nodes in the registry**: they are held by the tree. -/
def Members (descr : D → InterfaceKey) (s : Registry D P) (members : Finset (Interfacenode D P)) : Prop :=
  Kept interface_cmp_fn (interface_key_fn descr) ⟨s.interfaceregistry, members⟩

section Members

variable (h : s.Members descr members)

include h

theorem Members.contains_iff (node : Interfacenode D P) :
    s.Contains node ↔ node ∈ members := by
  obtain ⟨t, ht, -, hmem, -⟩ := h.refines totalOrder_interface_cmp_fn
  rw [← hmem]
  constructor
  · rintro ⟨t', ht', hnode⟩
    rwa [ht.unique ht']
  · exact fun hnode => ⟨t, ht, hnode⟩

/-- An operation of the tree returns, and it is served by the nodes which are in the registry. -/
theorem Members.operate
    (call : Lib.Psplay.Call (Interfacenode D P) InterfaceKey)
    (hallowed : call.Allowed ⟨s.interfaceregistry, members⟩)
    (hanswer : Lib.Psplay.Answerable interface_cmp_fn (interface_key_fn descr)
    ⟨s.interfaceregistry, members⟩ call) :
    ∃ node splay, s.operate descr call =
        some (node, { s with interfaceregistry := splay, operations := s.operations + 1 }) ∧
      Kept interface_cmp_fn (interface_key_fn descr) ⟨splay, Lib.Psplay.account members call node⟩ ∧
      Lib.Psplay.Served interface_cmp_fn (interface_key_fn descr) (s.interfaceregistry.elem_cnt + 2)
        (s.draws s.operations) ⟨s.interfaceregistry, members⟩
        ⟨splay, Lib.Psplay.account members call node⟩ node call := by
  obtain ⟨t, -, -, -, hcard⟩ := h.refines totalOrder_interface_cmp_fn
  have hfuel : members.card < s.interfaceregistry.elem_cnt + 2 := by
    have hcard : s.interfaceregistry.elem_cnt = members.card := hcard
    omega
  obtain ⟨⟨node, splay⟩, hrun⟩ := h.returns totalOrder_interface_cmp_fn (s.interfaceregistry.elem_cnt + 2)
    (s.draws s.operations) hallowed hanswer hfuel
  exact ⟨node, splay, by rw [Registry.operate, hrun]; rfl,
    h.step totalOrder_interface_cmp_fn hallowed hrun rfl⟩

/-- Looking up a key. -/
theorem Members.find (cmp : InterfaceKey) (splayfactor : UInt32) :
    ∃ node splay, s.operate descr (.find cmp splayfactor) =
        some (node, { s with interfaceregistry := splay, operations := s.operations + 1 }) ∧
      Kept interface_cmp_fn (interface_key_fn descr) ⟨splay, members⟩ ∧
      ∀ x, node = some x ↔ x ∈ members ∧ descr x.interface = cmp := by
  obtain ⟨node, splay, hrun, hkept, -, hserved⟩ := h.operate (.find cmp splayfactor) trivial trivial
  refine ⟨node, splay, hrun, hkept, fun x => ?_⟩
  rw [hserved x, interface_cmp_fn_eq_zero_iff]
  exact and_congr_right fun _ => eq_comm

/-- A node is taken off and freed. -/
theorem Members.takeOff {node : Interfacenode D P} (hnode : node ∈ members)
    (hunused : s.refcnt node = 0) : ∃ s', s.takeOff descr node = some s' ∧ s'.Members descr (members.erase node) ∧
    s'.freed = s.freed ++ [node] ∧ s'.allocated = s.allocated := by
  obtain ⟨removed, splay, hrun, hkept, hserved, -⟩ :=
    h.operate (.remove (some node)) trivial (.inl hnode)
  obtain ⟨rfl, -⟩ := hserved node hnode rfl
  refine ⟨{ s with
    interfaceregistry := splay
    operations := s.operations + 1
    freed := s.freed ++ [node] }, ?_, hkept, rfl, rfl⟩
  rw [Registry.takeOff, if_neg (not_not.mpr hunused), hrun]
  exact if_neg (not_not.mpr hunused)

/-- A node which is found by its key is removed. -/
theorem Members.remove {node : Interfacenode D P} (hnode : node ∈ members)
    (hunused : s.refcnt node = 0) :
    ∃ s', s.remove_interface descr node.interface = some s' ∧ s.remove_listed descr node.interface = some s' ∧
      s'.Members descr (members.erase node) ∧ s'.freed = s.freed ++ [node] ∧ s'.allocated = s.allocated := by
  obtain ⟨found, splay, hrun, hkept, hserved⟩ := h.find (descr node.interface) 0
  obtain rfl := (hserved node).mpr ⟨hnode, rfl⟩
  have hmembers : Members descr
      { s with interfaceregistry := splay, operations := s.operations + 1 } members := hkept
  obtain ⟨s', htake, hrest⟩ := hmembers.takeOff hnode hunused
  refine ⟨s', ?_, ?_, hrest⟩
  · rw [remove_interface, hrun]
    exact htake
  · rw [remove_listed, hrun]
    exact htake

/-- A descriptor is registered: its node is inserted, unless there is another one with the same key. -/
theorem Members.register (self : D) (plugin : P)
    (hfresh : s.nextNode self plugin ∉ members) :
    ∃ s', s.register_interface descr self plugin = some s' ∧
      s'.allocated = s.allocated ++ [s.nextNode self plugin] ∧ s'.freed = s.freed ∧
      ((∀ x ∈ members, descr x.interface ≠ descr self) →
        s'.Members descr (insert (s.nextNode self plugin) members)) ∧
      ((∃ x ∈ members, descr x.interface = descr self) → s'.Members descr members) := by
  let node := s.nextNode self plugin
  -- the node is allocated and initialised
  let s₁ : Registry D P := { s with
    interfaceregistry := { s.interfaceregistry with
      memory := Lib.Psplay.psplaynodeInit s.interfaceregistry.memory node }
    refcnt := Function.update s.refcnt node 0
    allocated := s.allocated ++ [node]
    operations := s.operations + 1 }
  have hnew : s.interfacenode_new descr self plugin = some (node, s₁) := rfl
  have h₁ : s₁.Members descr members := by
    have hrun : Lib.Psplay.perform interface_cmp_fn (interface_key_fn descr) 0 (fun _ => 0)
        s.interfaceregistry (.init node) = some (some node, s₁.interfaceregistry) := rfl
    have hallowed : (.init node : Lib.Psplay.Call (Interfacenode D P) InterfaceKey).Allowed
        ⟨s.interfaceregistry, members⟩ := hfresh
    exact And.left (h.step totalOrder_interface_cmp_fn hallowed hrun rfl)
  have hunlinked : ∀ d, s₁.interfaceregistry.memory (.child node d) = none := by
    intro d
    cases d <;> simp [s₁, Lib.Psplay.psplaynodeInit, Function.update]
  -- and inserted, or not
  obtain ⟨res, splay, hrun, hkept, hequal, hdiffer⟩ :=
      h₁.operate (.insert node 100) ⟨hfresh, hunlinked⟩ trivial
  refine ⟨{ s₁ with interfaceregistry := splay, operations := s₁.operations + 1 }, ?_, rfl, rfl, ?_, ?_⟩
  · rw [register_interface, hnew, Option.bind_some]
    simp only [hrun, Option.map_some]
  · intro hunpublished
    have hres : res = some node := by
      refine hdiffer fun y hy hcmp => hunpublished y hy ?_
      exact (interface_cmp_fn_eq_zero_iff.mp hcmp).symm
    rw [hres] at hkept
    exact hkept
  · rintro ⟨x, hx, hkey⟩
    have hres := (hequal ⟨x, hx, interface_cmp_fn_eq_zero_iff.mpr hkey.symm⟩).1
    rw [hres] at hkept
    exact hkept

end Members

end Registry

/-! ## Consistent use -/

namespace Usage

variable {descr : D → InterfaceKey} {u u' v w : Usage D P}

/-- **The record and the registry agree**: the nodes in the registry are the ones recorded. -/
structure Consistent (descr : D → InterfaceKey) (u : Usage D P) : Prop where
  members : u.registry.Members descr u.owned.toFinset
  nodup : u.owned.Nodup
  first : u.first = u.owned
  serial : ∀ node ∈ u.registry.allocated, node.serial < u.registry.allocated.length
  owned : ∀ node ∈ u.owned, node ∈ u.registry.allocated
  freed : ∀ node ∈ u.registry.freed, node ∈ u.registry.allocated
  accounted : ∀ node ∈ u.registry.allocated, node ∈ u.owned ↔ node ∉ u.registry.freed

theorem Consistent.contains_iff (h : u.Consistent descr) (node : Interfacenode D P) :
    u.registry.Contains node ↔ node ∈ u.owned := by
  rw [h.members.contains_iff, mem_toFinset]

theorem Consistent.nextNode_notMem (h : u.Consistent descr) (self : D) (plugin : P) :
    u.registry.nextNode self plugin ∉ u.registry.allocated :=
  fun hmem => lt_irrefl _ (h.serial _ hmem)

theorem Consistent.find (h : u.Consistent descr) (cmp : InterfaceKey) :
    ∃ node registry, u.registry.interfacenode_find descr cmp = some (node, registry) ∧
      Consistent descr { u with registry := registry } ∧ registry.freed = u.registry.freed ∧
      ∀ x, node = some x ↔ x ∈ u.owned ∧ descr x.interface = cmp := by
  obtain ⟨node, splay, hrun, hkept, hserved⟩ := h.members.find cmp 100
  refine ⟨node, _, hrun, { h with members := hkept }, rfl, fun x => ?_⟩
  rw [hserved, mem_toFinset]

/-- A consistent registry is as required. -/
theorem Consistent.proper (h : u.Consistent descr) : u.Proper descr where
  found node hnode := by
    obtain ⟨found, registry, hfind, -, -, hserved⟩ := h.find (descr node.interface)
    rw [h.first] at hnode
    rw [(hserved node).mpr ⟨hnode, rfl⟩] at hfind
    exact ⟨registry, hfind⟩
  present cmp node registry hrun := by
    obtain ⟨found, registry', hfind, -, -, hserved⟩ := h.find cmp
    rw [hfind] at hrun
    exact (hserved node).mp (Prod.mk.inj (Option.some.inj hrun)).1
  accounted node hnode := by rw [h.contains_iff, h.accounted node hnode]

/-! ### Leaving other nodes alone -/

omit [DecidableEq D] [DecidableEq P] in
theorem Leaves.refl (mine : Interfacenode D P → Prop) (u : Usage D P) : Leaves mine u u :=
  ⟨fun _ hnode _ => hnode, fun _ hnode => .inl hnode⟩

omit [DecidableEq D] [DecidableEq P] in
theorem Leaves.trans {p q r : Interfacenode D P → Prop} (huv : Leaves p u v) (hvw : Leaves q v w)
    (hp : ∀ node, p node → r node) (hq : ∀ node, q node → r node) : Leaves r u w where
  contained node hnode hother :=
    hvw.contained node (huv.contained node hnode fun hmine => hother (hp node hmine))
      fun hmine => hother (hq node hmine)
  freed node hnode := by
    rcases hvw.freed node hnode with hv | hmine
    · exact (huv.freed node hv).imp_right (hp node)
    · exact .inr (hq node hmine)

omit [DecidableEq D] [DecidableEq P] in
theorem Leaves.mono {p q : Interfacenode D P → Prop} (h : Leaves p u v) (hp : ∀ node, p node → q node) :
    Leaves q u v :=
  h.trans (Leaves.refl q v) hp fun _ hnode => hnode

/-! ### Registering and removing -/

/-- **A descriptor is registered.** Its node is in the registry then, provided that no other descriptor with
its key is; otherwise the node is lost. -/
theorem Consistent.register (h : u.Consistent descr) (self : D) (plugin : P) :
    ∃ u', u.register descr self plugin = some u' ∧
      (u.Unpublished descr self → u'.Consistent descr ∧ Leaves (fun _ => False) u u') ∧
      (¬ u.Unpublished descr self → ¬ u'.Proper descr) := by
  have hnew := h.nextNode_notMem self plugin
  have hfresh : u.registry.nextNode self plugin ∉ u.owned.toFinset := fun hmem =>
    hnew (h.owned _ (mem_toFinset.mp hmem))
  obtain ⟨registry, hrun, hallocated, hfreed, hinsert, hlost⟩ := h.members.register self plugin hfresh
  refine ⟨_, by rw [Usage.register, hrun, Option.map_some], ?_, ?_⟩
  · intro hunpublished
    have hmembers := hinsert fun x hx => hunpublished x (mem_toFinset.mp hx)
    constructor
    · refine ⟨?_, ?_, ?_, ?_, ?_, ?_, ?_⟩
      all_goals simp only [hallocated, hfreed]
      · rwa [toFinset_append, toFinset_cons, toFinset_nil, insert_empty_eq, Finset.union_comm,
          ← Finset.insert_eq]
      · exact h.nodup.append (nodup_singleton _) (by simpa using fun hmem => hnew (h.owned _ hmem))
      · rw [h.first, if_pos hunpublished]
      · intro node hnode
        rw [length_append]
        rcases mem_append.mp hnode with hold | hlast
        · exact (h.serial node hold).trans (Nat.lt_succ_self _)
        · rw [mem_singleton.mp hlast]
          exact Nat.lt_succ_self _
      · intro node hnode
        rcases mem_append.mp hnode with hold | hlast
        · exact mem_append_left _ (h.owned node hold)
        · exact mem_append_right _ hlast
      · exact fun node hnode => mem_append_left _ (h.freed node hnode)
      · intro node hnode
        rcases mem_append.mp hnode with hold | hlast
        · have hne : node ≠ u.registry.nextNode self plugin := fun heq => hnew (heq ▸ hold)
          rw [mem_append, mem_singleton, or_iff_left hne, h.accounted node hold]
        · rw [mem_singleton.mp hlast]
          exact iff_of_true (mem_append_right _ (mem_singleton_self _))
            fun hmem => hnew (h.freed _ hmem)
    · refine ⟨fun node hnode _ => ?_, fun node hnode => .inl (hfreed ▸ hnode)⟩
      rw [h.contains_iff] at hnode
      exact (hmembers.contains_iff node).mpr (Finset.mem_insert_of_mem (mem_toFinset.mpr hnode))
  · -- the node is neither in the registry nor freed
    intro hpublished hproper
    obtain ⟨x, hx, hkey⟩ : ∃ x ∈ u.owned, descr x.interface = descr self := by
      by_contra hnone
      exact hpublished fun x hx hkey => hnone ⟨x, hx, hkey⟩
    have hmembers := hlost ⟨x, mem_toFinset.mpr hx, hkey⟩
    have haccounted := hproper.accounted (u.registry.nextNode self plugin) (by
      rw [hallocated]
      exact mem_append_right _ (mem_singleton_self _))
    refine hfresh ((hmembers.contains_iff _).mp (haccounted.mpr fun hmem => ?_))
    exact hnew (h.freed _ (hfreed ▸ hmem))

/-- A plugin removes its own descriptor, with either function. -/
theorem Consistent.remove (h : u.Consistent descr) {self : D} {plugin : P} (hremovable : u.Removable self plugin) :
    ∃ u', u.remove descr self plugin = some u' ∧ u.removeListed descr self plugin = some u' ∧ u'.Consistent descr ∧
    Leaves (fun node => node.interface = self ∧ node.plugin = plugin) u u' := by
  obtain ⟨node, hown, hunused⟩ := hremovable
  have hnode : node ∈ u.owned := mem_of_find?_eq_some hown
  have hmine : node.interface = self ∧ node.plugin = plugin := by
    simpa using find?_some hown
  obtain ⟨registry, hremove, hlisted, hmembers, hfreed, hallocated⟩ :=
    h.members.remove (mem_toFinset.mpr hnode) hunused
  rw [hmine.1] at hremove hlisted
  have hdisown : u.disown self plugin registry = ⟨registry, u.owned.erase node, u.first.erase node⟩ := by
    rw [disown, hown]
  refine ⟨⟨registry, u.owned.erase node, u.first.erase node⟩, ?_, ?_, ?_, ?_⟩
  · rw [Usage.remove, hremove, Option.map_some, hdisown]
  · rw [removeListed, hlisted, Option.map_some, hdisown]
  · refine ⟨?_, h.nodup.erase node, by simp only [h.first], ?_, ?_, ?_, ?_⟩
    all_goals simp only [hallocated, hfreed]
    · have herase : (u.owned.erase node).toFinset = u.owned.toFinset.erase node := by
        ext x
        rw [mem_toFinset, h.nodup.mem_erase_iff, Finset.mem_erase, mem_toFinset]
      rwa [herase]
    · exact h.serial
    · exact fun x hx => h.owned x (mem_of_mem_erase hx)
    · intro x hx
      rcases mem_append.mp hx with hold | hlast
      · exact h.freed x hold
      · exact mem_singleton.mp hlast ▸ h.owned node hnode
    · intro x hx
      rw [h.nodup.mem_erase_iff, h.accounted x hx, mem_append, mem_singleton]
      tauto
  · refine ⟨fun x hx hother => ?_, fun x hx => ?_⟩
    · rw [h.contains_iff] at hx
      refine (hmembers.contains_iff x).mpr (Finset.mem_erase.mpr ⟨?_, mem_toFinset.mpr hx⟩)
      rintro rfl
      exact hother hmine
    · rw [hfreed] at hx
      rcases mem_append.mp hx with hold | hlast
      · exact .inl hold
      · exact .inr (mem_singleton.mp hlast ▸ hmine)

/-- A loop over several descriptors, each step of which is all right. -/
theorem Consistent.loop {f : Usage D P → D → Option (Usage D P)} {C : Usage D P → D → Prop}
    (mine : D → Interfacenode D P → Prop)
    (hstep : ∀ u self, u.Consistent descr → C u self →
      ∃ u', f u self = some u' ∧ u'.Consistent descr ∧ Leaves (mine self) u u')
    (h : u.Consistent descr) {interfaces : List D} (halong : Along f C interfaces u) :
    ∃ u', interfaces.foldlM f u = some u' ∧ u'.Consistent descr ∧
      Leaves (fun node => ∃ self ∈ interfaces, mine self node) u u' := by
  refine Machine.foldlM_rule (C := fun rest u => u.Consistent descr ∧ Along f C rest u)
    (R := fun rest u u' => u'.Consistent descr ∧ Leaves (fun node => ∃ self ∈ rest, mine self node) u u')
    ?_ ?_ ⟨h, halong⟩
  · rintro u ⟨h, -⟩
    exact ⟨h, Leaves.refl _ u⟩
  · rintro self rest u ⟨h, hmeets, halong⟩
    obtain ⟨v, hrun, hv, hleaves⟩ := hstep u self h hmeets
    refine ⟨v, hrun, ⟨hv, halong v hrun⟩, ?_⟩
    rintro w ⟨hw, hrest⟩
    refine ⟨hw, hleaves.trans hrest ?_ ?_⟩
    · exact fun node hmine => ⟨self, mem_cons_self, hmine⟩
    · rintro node ⟨other, hother, hmine⟩
      exact ⟨other, mem_cons_of_mem _ hother, hmine⟩

/-- **Each call** which is allowed, with distinct descriptors, returns; it keeps the registry consistent and
leaves the nodes of other descriptors alone. -/
theorem Consistent.perform (h : u.Consistent descr) {call : Call D P} (hallowed : u.Allowed descr call)
    (hdistinct : u.Distinct descr call) :
    ∃ u', u.perform descr call = some u' ∧ u'.Consistent descr ∧ Leaves (Removes call) u u' := by
  cases call with
  | register_interface self plugin =>
    obtain ⟨u', hrun, hregistered, -⟩ := h.register self plugin
    exact ⟨u', hrun, hregistered hdistinct⟩
  | bulkregister_interfaces self plugin =>
    obtain ⟨u', hrun, hkept, hleaves⟩ := h.loop (fun _ _ => False) (fun u interface h hunpublished => by
      obtain ⟨u', hrun, hregistered, -⟩ := h.register interface plugin
      exact ⟨u', hrun, hregistered hunpublished⟩) hdistinct
    refine ⟨u', hrun, hkept, hleaves.mono ?_⟩
    rintro node ⟨-, -, hfalse⟩
    exact hfalse
  | remove_interface self plugin =>
    obtain ⟨u', hrun, -, hkept, hleaves⟩ := h.remove hallowed
    exact ⟨u', hrun, hkept, hleaves⟩
  | bulkremove_interfaces self plugin =>
    obtain ⟨u', hrun, hkept, hleaves⟩ := h.loop
      (fun interface node => node.interface = interface ∧ node.plugin = plugin)
      (fun u interface h hremovable => by
        obtain ⟨u', -, hrun, hkept, hleaves⟩ := h.remove hremovable
        exact ⟨u', hrun, hkept, hleaves⟩) hallowed
    refine ⟨u', hrun, hkept, hleaves.mono ?_⟩
    rintro node ⟨interface, hmem, rfl, hplugin⟩
    exact ⟨hmem, hplugin⟩
  | interfacenode_find cmp =>
    obtain ⟨node, registry, hrun, hkept, hfreed, -⟩ := h.find cmp
    refine ⟨{ u with registry := registry }, by rw [Usage.perform, hrun]; rfl, hkept, ?_, ?_⟩
    · intro x hx _
      rw [hkept.contains_iff]
      exact (h.contains_iff x).mp hx
    · exact fun x hx => .inl (hfreed ▸ hx)
  | openClose refcnt =>
    refine ⟨_, rfl, { h with members := h.members }, fun _ hnode _ => hnode, fun _ hnode => .inl hnode⟩

/-! ### Runs -/

/-- The calls which are considered: the plugins only remove what is their own, and descriptors differ. -/
def Orderly (descr : D → InterfaceKey) (u : Usage D P) (call : Call D P) : Prop :=
  u.Allowed descr call ∧ u.Distinct descr call

instance (u : Usage D P) (call : Call D P) : Decidable (u.Orderly descr call) :=
  inferInstanceAs (Decidable (u.Allowed descr call ∧ u.Distinct descr call))

theorem consistent_start (memory : LinkMemory (Interfacenode D P)) (draws : ℕ → ℕ → UInt32) :
    Consistent descr ⟨.init memory draws, [], []⟩ where
  members := ⟨[], Lib.Psplay.represents_psplayInit _ _ memory, fun _ => by simp⟩
  nodup := .nil
  first := rfl
  serial := nofun
  owned := nofun
  freed := nofun
  accounted := nofun

/-- The registry is consistent in every run where descriptors which are registered differ. -/
theorem consistent_of_reachable {memory : LinkMemory (Interfacenode D P)} {draws : ℕ → ℕ → UInt32}
    (hreach : ((machine descr memory draws).restrict (Orderly descr)).Reachable u) : u.Consistent descr := by
  have hinv : ((machine descr memory draws).restrict (Orderly descr)).Invariant (Consistent descr) := by
    constructor
    case init =>
      rintro u rfl
      exact consistent_start memory draws
    case step =>
      rintro u call u' h ⟨⟨hallowed, hdistinct⟩, hstep⟩
      obtain ⟨v, hrun, hkept, -⟩ := h.perform hallowed hdistinct
      obtain rfl := Option.some.inj (hrun.symm.trans hstep)
      exact hkept
  exact hinv.reachable hreach

/-- **The registry serves all the plugins**, when the descriptors registered at the same time
differ: what was registered first is found, what was removed is not found, and nodes are either in
the registry or freed; all the calls return, and a removal leaves the nodes of other descriptors
alone. -/
theorem proper_of_reachable (memory : LinkMemory (Interfacenode D P)) (draws : ℕ → ℕ → UInt32) (u : Usage D P)
    (hreach : ((machine descr memory draws).restrict (Orderly descr)).Reachable u) : u.Proper descr ∧ ∀ call,
    u.Orderly descr call → ∃ u', u.perform descr call = some u' ∧ Leaves (Removes call) u u' := by
  have h := consistent_of_reachable hreach
  refine ⟨h.proper, fun call horderly => ?_⟩
  obtain ⟨u', hrun, -, hleaves⟩ := h.perform horderly.1 horderly.2
  exact ⟨u', hrun, hleaves⟩

/-- **The condition can not be relaxed**: registering a descriptor whose key is in the registry
loses a node. -/
theorem not_proper_of_published {memory : LinkMemory (Interfacenode D P)} {draws : ℕ → ℕ → UInt32}
    (hreach : ((machine descr memory draws).restrict (Orderly descr)).Reachable u) {self : D} (plugin : P)
    (hpublished : ¬ u.Unpublished descr self) :
    ∃ u', u.perform descr (.register_interface self plugin) = some u' ∧ ¬ u'.Proper descr := by
  obtain ⟨u', hrun, -, hlost⟩ := (consistent_of_reachable hreach).register self plugin
  exact ⟨u', hrun, hlost hpublished⟩

/-! ### Two plugins -/

/-- Two implementations of the same interface, with different names. -/
def twoNames (self : Bool) : InterfaceKey := ⟨[73], 0, if self then [66] else [65]⟩

/-- Two descriptors with the same name. -/
def oneName (_ : Bool) : InterfaceKey := ⟨[73], 0, [65]⟩

theorem proper_of_reachable_twoNames : ∃ u : Usage Bool Bool,
    u.registry.allocated.length = 2 ∧ u.registry.freed.length = 1 ∧ u.Proper twoNames ∧
    ∀ call, u.Orderly twoNames call →
      ∃ u', u.perform twoNames call = some u' ∧ Leaves (Removes call) u u' := by
  obtain ⟨u, hreach, hu⟩ := Machine.exists_restrict_reachable_of_exec (Orderly twoNames)
    (fun (u : Usage Bool Bool) call => u.perform twoNames call) ⟨.init (fun _ => none) fun _ _ => 0, [], []⟩
    [.register_interface false false, .bulkregister_interfaces [true] true, .remove_interface false false]
    (fun u => u.registry.allocated.length = 2 ∧ u.registry.freed.length = 1) (by decide +kernel)
  obtain ⟨hallocated, hfreed⟩ := of_decide_eq_true hu
  exact ⟨u, hallocated, hfreed, proper_of_reachable _ _ u hreach⟩

/-- **A second descriptor with the same name**: its node is lost, and when it is removed, then the node of the
first descriptor is freed. -/
theorem not_proper_oneName :
    (∃ u : Usage Bool Bool, ((machine oneName (fun _ => none) fun _ _ => 0).restrict
      (Allowed oneName)).Reachable u ∧ ¬ u.Proper oneName) ∧
    ∃ (u : Usage Bool Bool) (call : Call Bool Bool) (u' : Usage Bool Bool),
      ((machine oneName (fun _ => none) fun _ _ => 0).restrict (Allowed oneName)).Reachable u ∧
        u.Allowed oneName call ∧ u.perform oneName call = some u' ∧ ¬ Leaves (Removes call) u u' := by
  constructor
  · obtain ⟨u, hreach, hu⟩ := Machine.exists_restrict_reachable_of_exec (Orderly oneName)
      (fun (u : Usage Bool Bool) call => u.perform oneName call) ⟨.init (fun _ => none) fun _ _ => 0, [], []⟩
      [.register_interface false false] (fun u => ¬ u.Unpublished oneName true) (by decide +kernel)
    obtain ⟨u', hrun, hlost⟩ := not_proper_of_published hreach true (of_decide_eq_true hu)
    refine ⟨u', ?_, hlost⟩
    let start : Machine (Usage Bool Bool) (Call Bool Bool) := machine oneName (fun _ => none) fun _ _ => 0
    have hallowed : (start.restrict (Allowed oneName)).Reachable u :=
      Machine.Reachable.mono (M := start.restrict (Orderly oneName)) (N := start.restrict (Allowed oneName))
        (fun _ h => h) (fun _ _ _ h => ⟨h.1.1, h.2⟩) hreach
    have hany : u.Allowed oneName (.register_interface true true) := trivial
    exact hallowed.step ⟨hany, hrun⟩
  · obtain ⟨u, hreach, hu⟩ := Machine.exists_restrict_reachable_of_exec (Allowed oneName)
      (fun (u : Usage Bool Bool) call => u.perform oneName call) ⟨.init (fun _ => none) fun _ _ => 0, [], []⟩
      [.register_interface false false, .register_interface true true]
      (fun u => u.registry.freed = [] ∧ u.Allowed oneName (.remove_interface true true) ∧
        ((u.perform oneName (.remove_interface true true)).any
          fun u' => ⟨0, false, false⟩ ∈ u'.registry.freed) = true) (by decide +kernel)
    obtain ⟨hnone, hallowed, hremoved⟩ := of_decide_eq_true hu
    cases hrun : u.perform oneName (.remove_interface true true) with
    | none =>
      rw [hrun] at hremoved
      cases hremoved
    | some u' =>
      rw [hrun] at hremoved
      refine ⟨u, _, u', hreach, hallowed, hrun, fun hleaves => ?_⟩
      rcases hleaves.freed _ (of_decide_eq_true hremoved) with hold | hmine
      · rw [hnone] at hold
        cases hold
      · exact absurd hmine.1 (by decide)

end Usage

end Lumiera.Common.Registration
