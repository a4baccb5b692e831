import Lumiera.Lib.PSplayRefinement

/-! # The registry of interfaces (`common/interfaceregistry.c`)

Plugins publish interfaces, each of them by a descriptor with the name of the interface, its version
and the name of this implementation. For each descriptor registered there is a node, and a splay
tree holds these nodes, in the order of these three properties. To remove an interface, the node is
looked up with these properties, is taken off the tree and freed.

A descriptor is a static object of the plugin, which is known by its address; so are the nodes, with a serial
number for the allocation. The outcomes of the random generator used by the tree are given for each of its
operations in turn. An operation has no result when a null pointer is accessed or a requirement is
violated. -/

namespace Lumiera.Common.Registration

open Lib.Psplay (PSplay)
open SearchTree (TotalOrder)

/-! ## The order of the interfaces -/

/-- `strcmp`, for the characters of two strings without the terminating zero. -/
def strcmp : List UInt8 → List UInt8 → ℤ
  | [], [] => 0
  | [], _ :: _ => -1
  | _ :: _, [] => 1
  | a :: as, b :: bs => if a < b then -1 else if b < a then 1 else strcmp as bs

/-- `lumiera_interface_struct`, as far as it is compared. -/
structure InterfaceKey where
  interface : List UInt8
  version : UInt32
  name : List UInt8
  deriving DecidableEq, Repr

/-- `lumiera_interface_cmp_fn` -/
def interface_cmp_fn (a b : InterfaceKey) : ℤ :=
  let r := strcmp a.interface b.interface
  if r < 0 then -1
  else if 0 < r then 1
  else if a.version < b.version then -1
  else if b.version < a.version then 1
  else
    let r := strcmp a.name b.name
    if r < 0 then -1 else if 0 < r then 1 else 0

theorem totalOrder_strcmp : TotalOrder strcmp where
  swap a b := by
    induction a generalizing b with
    | nil => cases b <;> simp [strcmp]
    | cons x xs ih =>
      cases b with
      | nil => simp [strcmp]
      | cons y ys =>
        simp only [strcmp, UInt8.lt_iff_toNat_lt]
        have hxs := ih ys
        split_ifs <;> omega
  trans a b c := by
    induction a generalizing b c with
    | nil => cases c <;> simp [strcmp]
    | cons x xs ih =>
      cases b with
      | nil => simp [strcmp]
      | cons y ys =>
        cases c with
        | nil =>
          intro _ hle
          simp [strcmp] at hle
        | cons z zs =>
          simp only [strcmp, UInt8.lt_iff_toNat_lt]
          have hxs := ih ys zs
          split_ifs <;> omega

theorem totalOrder_version : TotalOrder fun a b : UInt32 => (a.toNat : ℤ) - b.toNat where
  swap a b := by omega
  trans a b c := by omega

theorem totalOrder_sign {κ : Type*} {cmp : κ → κ → ℤ} (h : TotalOrder cmp) :
    TotalOrder fun a b => if cmp a b < 0 then -1 else if 0 < cmp a b then 1 else 0 := by
  have hnone : TotalOrder fun _ _ : Unit => (0 : ℤ) := ⟨fun _ _ => by simp, fun _ _ _ _ _ => le_rfl⟩
  exact h.lexicographic hnone id fun _ => ()

/-- Interfaces are ordered by their name, their version, and the name of the implementation. -/
theorem totalOrder_interface_cmp_fn : TotalOrder interface_cmp_fn := by
  have hname := totalOrder_sign totalOrder_strcmp
  have hversion := totalOrder_version.lexicographic hname InterfaceKey.version InterfaceKey.name
  have h := totalOrder_strcmp.lexicographic hversion InterfaceKey.interface id
  have heq : interface_cmp_fn = fun a b =>
      if strcmp a.interface b.interface < 0 then -1
      else if 0 < strcmp a.interface b.interface then 1
      else if (a.version.toNat : ℤ) - b.version.toNat < 0 then -1
      else if 0 < (a.version.toNat : ℤ) - b.version.toNat then 1
      else if strcmp a.name b.name < 0 then -1 else if 0 < strcmp a.name b.name then 1 else 0 := by
    funext a b
    simp only [interface_cmp_fn, UInt32.lt_iff_toNat_lt, sub_neg, sub_pos, Int.ofNat_lt]
  rw [heq]
  exact h

theorem strcmp_eq_zero_iff {a b : List UInt8} : strcmp a b = 0 ↔ a = b := by
  induction a generalizing b with
  | nil => cases b <;> simp [strcmp]
  | cons x xs ih =>
    cases b with
    | nil => simp [strcmp]
    | cons y ys =>
      simp only [strcmp, UInt8.lt_iff_toNat_lt, List.cons.injEq, ← UInt8.toNat_inj, ← ih]
      split_ifs <;> (try rw [false_iff]) <;> omega

/-- Interfaces which do not differ have the same name, version and name of the implementation. -/
theorem interface_cmp_fn_eq_zero_iff {a b : InterfaceKey} : interface_cmp_fn a b = 0 ↔ a = b := by
  have hinterface := @strcmp_eq_zero_iff a.interface b.interface
  have hname := @strcmp_eq_zero_iff a.name b.name
  obtain ⟨interface, version, name⟩ := a
  obtain ⟨interface', version', name'⟩ := b
  simp only [InterfaceKey.mk.injEq, ← hinterface, ← hname, interface_cmp_fn, UInt32.lt_iff_toNat_lt,
    ← UInt32.toNat_inj]
  split_ifs <;> (try rw [false_iff]) <;> omega

/-! ## Nodes -/

/-- `lumiera_interfacenode_struct`: a node allocated for a descriptor, with the plugin it belongs to. The
reference count is kept elsewhere. -/
structure Interfacenode (D P : Type*) where
  serial : ℕ
  interface : D
  plugin : P
  deriving DecidableEq, Repr

variable {D P : Type*} [DecidableEq D] [DecidableEq P] (descr : D → InterfaceKey)

/-- `lumiera_interface_key_fn` -/
def interface_key_fn (node : Interfacenode D P) : InterfaceKey := descr node.interface

/-- **The registry**, together with the nodes allocated and freed. -/
structure Registry (D P : Type*) where
  interfaceregistry : PSplay (Interfacenode D P)
  refcnt : Interfacenode D P → ℕ
  allocated : List (Interfacenode D P)
  freed : List (Interfacenode D P)
  /-- The outcomes of the random generator, for each operation of the tree. -/
  draws : ℕ → ℕ → UInt32
  /-- The number of operations of the tree thus far. -/
  operations : ℕ

namespace Registry

/-- `lumiera_interfaceregistry_init`; nothing is known about the memory which is going to be allocated. -/
def init (memory : LinkMemory (Interfacenode D P)) (draws : ℕ → ℕ → UInt32) : Registry D P where
  interfaceregistry := Lib.Psplay.psplayInit memory
  refcnt _ := 0
  allocated := []
  freed := []
  draws := draws
  operations := 0

/-- An operation of the tree; there are enough rounds for its loops. -/
def operate (call : Lib.Psplay.Call (Interfacenode D P) InterfaceKey) (s : Registry D P) :
    Option (Option (Interfacenode D P) × Registry D P) :=
  (Lib.Psplay.perform interface_cmp_fn (interface_key_fn descr) (s.interfaceregistry.elem_cnt + 2)
    (s.draws s.operations) s.interfaceregistry call).map fun (node, splay) =>
      (node, { s with interfaceregistry := splay, operations := s.operations + 1 })

/-- The node which is allocated next. -/
def nextNode (self : D) (plugin : P) (s : Registry D P) : Interfacenode D P :=
    ⟨s.allocated.length, self, plugin⟩

/-- `lumiera_interfacenode_new` -/
def interfacenode_new (self : D) (plugin : P) (s : Registry D P) :
    Option (Interfacenode D P × Registry D P) :=
  let node := s.nextNode self plugin
  let s := { s with
    allocated := s.allocated ++ [node]
    refcnt := Function.update s.refcnt node 0 }
  (s.operate descr (.init node)).map fun (_, s) => (node, s)

/-- `lumiera_interfacenode_delete` -/
def interfacenode_delete (node : Option (Interfacenode D P)) (s : Registry D P) : Option (Registry D P) :=
  match node with
  | none => some s
  | some node => if s.refcnt node ≠ 0 then none else some { s with freed := s.freed ++ [node] }

/-- **`lumiera_interfaceregistry_register_interface`**; the result of the insertion is not looked at. -/
def register_interface (self : D) (plugin : P) (s : Registry D P) : Option (Registry D P) :=
  (s.interfacenode_new descr self plugin).bind fun (node, s) =>
    (s.operate descr (.insert node 100)).map fun (_, s) => s

/-- Take a node off the tree, and free what was taken off. -/
def takeOff (node : Interfacenode D P) (s : Registry D P) : Option (Registry D P) :=
  if s.refcnt node ≠ 0 then none
  else (s.operate descr (.remove (some node))).bind fun (removed, s) => s.interfacenode_delete removed

/-- **`lumiera_interfaceregistry_remove_interface`**; the node must be found. -/
def remove_interface (self : D) (s : Registry D P) : Option (Registry D P) :=
  (s.operate descr (.find (descr self) 0)).bind fun (node, s) =>
    match node with
    | none => none
    | some node => s.takeOff descr node

/-- The body of the loop to remove several interfaces: a node which is not found is only warned about. -/
def remove_listed (self : D) (s : Registry D P) : Option (Registry D P) :=
  (s.operate descr (.find (descr self) 0)).bind fun (node, s) =>
    match node with
    | none => some s
    | some node => s.takeOff descr node

/-- **`lumiera_interfaceregistry_interfacenode_find`** -/
def interfacenode_find (cmp : InterfaceKey) (s : Registry D P) :
    Option (Option (Interfacenode D P) × Registry D P) :=
  s.operate descr (.find cmp 100)

end Registry

/-- The calls of the plugins. While interfaces are opened and closed, the reference counts change. -/
inductive Call (D P : Type*)
  | register_interface (self : D) (plugin : P)
  | bulkregister_interfaces (self : List D) (plugin : P)
  | remove_interface (self : D) (plugin : P)
  | bulkremove_interfaces (self : List D) (plugin : P)
  | interfacenode_find (cmp : InterfaceKey)
  | openClose (refcnt : Interfacenode D P → ℕ)

end Lumiera.Common.Registration
