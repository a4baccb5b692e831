import Mathlib.Algebra.Order.BigOperators.Group.List
import Mathlib.Tactic.FinCases
import Lumiera.Common.InterfaceClose
import Lumiera.Common.InterfaceOpen

/-! # The reference counts over whole runs

After each call from the outside, an interface node is counted once for every cycle-free path of
dependencies from an interface opened and not closed yet, as long as this number is in the range of
the counter. -/

namespace Lumiera.Common

open List

variable {ι : Type} [DecidableEq ι] [Fintype ι]

/-- One interface depends on another one directly. -/
def Interfaces.DependsOn (ifc : Interfaces ι) (i j : ι) : Prop := j ∈ ifc.dependencies i

namespace InterfaceRegistry

variable {ifc : Interfaces ι} {s s' : InterfaceRegistry ι}

/-- **The counts can be represented** after the operation, as unsigned numbers. -/
def Representable (ifc : Interfaces ι) (s : InterfaceRegistry ι) : InterfaceOperation ι → Prop
  | .open interface => ∀ n, pathsFrom ifc [] (interface :: s.outstanding) n < 2 ^ 32
  | .close _ => True

/-- **The state between calls**: no node is in process, the counts are the numbers of paths, and
whatever is in use has its dependencies recorded. -/
structure Consistent (ifc : Interfaces ι) (s : InterfaceRegistry ι) : Prop where
  openStack : s.openStack = []
  closeStack : s.closeStack = []
  collect : s.collect_dependencies = false
  refcnt : ∀ n, s.refcnt n = pathsFrom ifc [] s.outstanding n
  fits : ∀ n, s.refcnt n < 2 ^ 32
  settled : Settled ifc s []
  log : ∀ n, Counted ifc n 0 (eventsOf n s.log) (s.refcnt n)

omit [Fintype ι] in
theorem consistent_initial (ifc : Interfaces ι) : Consistent ifc initial :=
  ⟨rfl, rfl, rfl, fun _ => rfl, fun _ => Nat.two_pow_pos 32, ⟨fun _ _ hpos => absurd hpos (Nat.lt_irrefl 0),
    fun _ _ => Or.inl rfl, fun _ hn => (nomatch hn)⟩, fun _ => .nil 0⟩

theorem unvisited_nil : unvisited ([] : List ι) < maxDepth ι := by
  unfold unvisited maxDepth
  simp

/-! ## What can be reached -/

variable {nodes : List ι}

omit [DecidableEq ι] [Fintype ι] in
theorem exists_of_pathsFrom_pos {n : ι} (h : 0 < pathsFrom ifc [] nodes n) :
    ∃ x ∈ nodes, 0 < pathCount ifc.dependencies [] x n := by
  by_contra hnone
  have hzero : pathsFrom ifc [] nodes n = 0 := by
    refine sum_eq_zero fun c hc => ?_
    obtain ⟨x, hx, rfl⟩ := mem_map.mp hc
    by_contra hpos
    exact hnone ⟨x, hx, Nat.pos_of_ne_zero hpos⟩
  omega

theorem pathsFrom_pos {x n : ι} (hx : x ∈ nodes) (h : Relation.ReflTransGen ifc.DependsOn x n) :
    0 < pathsFrom ifc [] nodes n := by
  have hpos : 0 < pathCount ifc.dependencies [] x n := pathCount_pos h
  exact Nat.lt_of_lt_of_le hpos (single_le_sum (fun _ _ => Nat.zero_le _) _ (mem_map_of_mem hx))

theorem pathsFrom_dependency_pos {n d : ι} (h : 0 < pathsFrom ifc [] nodes n) (hd : d ∈ ifc.dependencies n) :
    0 < pathsFrom ifc [] nodes d := by
  obtain ⟨x, hx, hpos⟩ := exists_of_pathsFrom_pos h
  exact pathsFrom_pos hx ((reaches_of_pathCount_pos hpos).tail hd)

omit [Fintype ι] in
theorem pathsFrom_erase {x : ι} (hx : x ∈ nodes) (n : ι) :
    pathsFrom ifc [] nodes n = pathCount ifc.dependencies [] x n + pathsFrom ifc [] (nodes.erase x) n := by
  have hperm := ((perm_cons_erase hx).map fun d => pathCount ifc.dependencies [] d n).sum_eq
  exact hperm

/-! ## The operations -/

/-- Opening an interface keeps the state consistent. -/
theorem Consistent.open (h : Consistent ifc s) {x : ι} (hx : Representable ifc s (.open x)) :
    ∃ s', s.perform ifc (.open x) = some s' ∧ Consistent ifc s' := by
  have hsum : ∀ n, s.refcnt n + pathCount ifc.dependencies [] x n =
      pathsFrom ifc [] (x :: s.outstanding) n := by
    intro n
    rw [h.refcnt, pathsFrom_cons, Nat.add_comm]
  have hopenable : Openable ifc (maxDepth ι) (pathCount ifc.dependencies s.openStack x) s := by
    refine ⟨h.openStack ▸ h.settled, h.openStack ▸ unvisited_nil, fun n => ?_, fun hcollect => ?_⟩
    · rw [h.openStack, hsum]
      exact hx n
    · rw [h.collect] at hcollect
      cases hcollect
  obtain ⟨done, hopen, hopens, hsettled, -⟩ := open_spec hopenable
  rw [h.openStack] at hopens
  have hrefcnt : ∀ n, done.refcnt n = pathsFrom ifc [] (x :: s.outstanding) n := fun n =>
    (hopens.refcnt n).trans (hsum n)
  obtain ⟨events, hlog, hcounted⟩ := hopens.log
  refine ⟨{ done with outstanding := x :: done.outstanding }, by rw [perform, hopen]; rfl, ?_⟩
  refine ⟨hopens.openStack.trans h.openStack, hopens.closeStack.trans h.closeStack,
    hopens.collect.trans h.collect, fun n => ?_, fun n => ?_, ?_, fun n => ?_⟩
  · rw [hopens.outstanding]
    exact hrefcnt n
  · exact (hrefcnt n).trans_lt (hx n)
  · rw [hopens.openStack, h.openStack] at hsettled
    exact ⟨hsettled.used, hsettled.recorded, hsettled.stacked⟩
  · rw [hlog, eventsOf_append]
    exact (h.log n).trans (hcounted n)

/-- **Closing an interface** keeps the state consistent; whatever is released cannot be reached from
the interfaces which remain open. -/
theorem Consistent.close (h : Consistent ifc s) {x : ι} (hx : x ∈ s.outstanding) :
    ∃ s' events, s.perform ifc (.close x) = some s' ∧ Consistent ifc s' ∧ s'.log = s.log ++ events ∧
      ∀ n, .released n ∈ events → ∀ y ∈ s'.outstanding, ¬ Relation.ReflTransGen ifc.DependsOn y n := by
  have hclosable : Closable ifc (maxDepth ι) (pathCount ifc.dependencies s.closeStack x) s := by
    refine ⟨fun n hn => (h.settled.used n not_mem_nil hn).1, h.closeStack ▸ unvisited_nil,
      fun n => ?_, h.fits⟩
    rw [h.closeStack, h.refcnt, pathsFrom_erase hx]
    exact Nat.le_add_right _ _
  obtain ⟨done, hclose, hcloses⟩ := close_spec hclosable
  rw [h.closeStack] at hcloses
  have hrefcnt : ∀ n, done.refcnt n = pathsFrom ifc [] (s.outstanding.erase x) n := by
    intro n
    have hbefore := hcloses.refcnt n
    rw [h.refcnt, pathsFrom_erase hx] at hbefore
    omega
  obtain ⟨events, hlog, hcounted, -, hreleased⟩ := hcloses.log
  refine ⟨{ done with outstanding := done.outstanding.erase x }, events, ?_, ?_, hlog, ?_⟩
  · rw [perform, if_pos hx, hclose]
    rfl
  · refine ⟨hcloses.openStack.trans h.openStack, hcloses.closeStack.trans h.closeStack,
      hcloses.collect.trans h.collect, fun n => ?_, fun n => ?_, ⟨fun n hn hpos => ?_, fun n hn => ?_, ?_⟩,
      fun n => ?_⟩
    · rw [hcloses.outstanding]
      exact hrefcnt n
    · have hbefore := hcloses.refcnt n
      have hfits := h.fits n
      show done.refcnt n < 2 ^ 32
      omega
    · have hpos' : 0 < done.refcnt n := hpos
      have hbefore : 0 < s.refcnt n := by
        rw [hcloses.refcnt]
        omega
      refine ⟨?_, fun d hd => ?_⟩
      · rw [hcloses.deps]
        exact (h.settled.used n hn hbefore).1
      · rw [hrefcnt] at hpos' ⊢
        exact pathsFrom_dependency_pos hpos' hd
    · rw [hcloses.deps]
      exact h.settled.recorded n hn
    · exact fun n hn => (nomatch hn)
    · rw [hlog, eventsOf_append]
      exact (h.log n).trans (hcounted n)
  · intro n hn y hy hreach
    have hpos : 0 < pathsFrom ifc [] (s.outstanding.erase x) n := by
      refine pathsFrom_pos ?_ hreach
      rwa [← hcloses.outstanding]
    rw [← hrefcnt, hreleased n hn] at hpos
    exact Nat.lt_irrefl 0 hpos

theorem consistent_reachable (h : ((machine ifc).restrict (Representable ifc)).Reachable s) : Consistent ifc s := by
  refine Machine.Invariant.reachable (P := Consistent ifc) ⟨?_, ?_⟩ h
  · rintro s rfl
    exact consistent_initial ifc
  · rintro s op s' hs ⟨hop, hstep⟩
    have hstep : s.perform ifc op = some s' := hstep
    cases op with
    | «open» x =>
      obtain ⟨t, hopen, hconsistent⟩ := hs.open hop
      obtain rfl := Option.some.inj (hopen.symm.trans hstep)
      exact hconsistent
    | close x =>
      by_cases hx : x ∈ s.outstanding
      · obtain ⟨t, -, hclose, hconsistent, -, -⟩ := hs.close hx
        obtain rfl := Option.some.inj (hclose.symm.trans hstep)
        exact hconsistent
      · rw [perform, if_neg hx] at hstep
        cases hstep

/-- **Interface reference counts**: as long as they can be represented, the count of each interface
is the number of cycle-free dependency paths from the interfaces opened and not closed yet; the
acquire function is invoked exactly when the count goes from 0 to 1, and the release function
exactly when it goes from 1 to 0. Each further call returns; in particular, an interface which is
released cannot be reached any more. -/
theorem refcnt_eq_pathsFrom (h : ((machine ifc).restrict (Representable ifc)).Reachable s) :
    (∀ n, s.refcnt n = pathsFrom ifc [] s.outstanding n) ∧
    (∀ n, Counted ifc n 0 (eventsOf n s.log) (s.refcnt n)) ∧
    (s.outstanding = [] → ∀ n, s.refcnt n = 0) ∧
    (∀ x, Representable ifc s (.open x) → (s.perform ifc (.open x)).isSome) ∧
    ∀ x ∈ s.outstanding, ∃ s' events, s.perform ifc (.close x) = some s' ∧ s'.log = s.log ++ events ∧
      ∀ n, .released n ∈ events → ∀ y ∈ s'.outstanding, ¬ Relation.ReflTransGen ifc.DependsOn y n := by
  have hs := consistent_reachable h
  refine ⟨hs.refcnt, hs.log, fun hnone n => ?_, fun x hx => ?_, fun x hx => ?_⟩
  · rw [hs.refcnt, hnone]
    rfl
  · obtain ⟨s', hopen, -⟩ := hs.open hx
    rw [hopen]
    rfl
  · obtain ⟨s', events, hclose, -, hlog, hreleased⟩ := hs.close hx
    exact ⟨s', events, hclose, hlog, hreleased⟩

/-! ## Runs with two interfaces, and with many opens -/

/-- Two interfaces which depend on each other, the first one twice. -/
def mutualInterfaces : Interfaces (Fin 2) where
  acquire i := if i = 0 then some [1, 1] else some [0]
  release i := if i = 0 then some [1, 1] else some [0]
  balanced _ := List.Perm.refl _

theorem pathCount_mutualInterfaces (x n : Fin 2) :
    pathCount mutualInterfaces.dependencies [] x n = if n = x then 1 else if x = 0 then 2 else 1 := by
  fin_cases x <;> fin_cases n <;>
    simp [pathCount_of_not_mem, pathCount_of_mem, mutualInterfaces, Interfaces.dependencies]

/-- Both are opened, and the first one is closed again. -/
def mutualOperations : List (InterfaceOperation (Fin 2)) := [.open 0, .open 1, .close 0]

theorem mutualInterfaces_reachable :
    ∃ s, ((machine mutualInterfaces).restrict (Representable mutualInterfaces)).Reachable s ∧
      s.outstanding = [1] ∧ s.refcnt 0 = 1 ∧ s.refcnt 1 = 1 := by
  have hsmall : ∀ (nodes : List (Fin 2)) n, pathsFrom mutualInterfaces [] nodes n ≤ 2 * nodes.length := by
    intro nodes n
    induction nodes with
    | nil => exact Nat.le_refl 0
    | cons x nodes ih =>
      have hx : pathCount mutualInterfaces.dependencies [] x n ≤ 2 := by
        rw [pathCount_mutualInterfaces]
        split_ifs <;> omega
      have hsum : pathsFrom mutualInterfaces [] (x :: nodes) n =
          pathCount mutualInterfaces.dependencies [] x n + pathsFrom mutualInterfaces [] nodes n :=
        congrFun (pathsFrom_cons [] x nodes) n
      rw [length_cons]
      omega
  have hopen : ∀ (s : InterfaceRegistry (Fin 2)) x, s.outstanding.length < 3 →
      Representable mutualInterfaces s (.open x) := by
    intro s x hlength n
    have hn := hsmall (x :: s.outstanding) n
    rw [length_cons] at hn
    omega
  refine ⟨_, ⟨initial, mutualOperations, rfl, .cons ⟨hopen _ _ (by decide), rfl⟩
    (.cons ⟨hopen _ _ (by decide), rfl⟩ (.cons ⟨trivial, rfl⟩ (.nil _)))⟩, rfl, rfl, rfl⟩

/-- The interface opened last is counted on each node, once for the path to it. -/
theorem refcnt_eq_pathsFrom_mutualInterfaces : ∃ s : InterfaceRegistry (Fin 2), s.outstanding = [1] ∧ s.refcnt 0 = 1 ∧
    s.refcnt 1 = 1 ∧ ∀ n, s.refcnt n = pathsFrom mutualInterfaces [] s.outstanding n := by
  obtain ⟨s, hs, houtstanding, hzero, hone⟩ := mutualInterfaces_reachable
  exact ⟨s, houtstanding, hzero, hone, (refcnt_eq_pathsFrom hs).1⟩

/-- A single interface without dependencies. -/
def singleInterface : Interfaces Unit where
  acquire _ := none
  release _ := none
  balanced _ := List.Perm.refl _

theorem pathCount_singleInterface : pathCount singleInterface.dependencies [] () () = 1 := by
  rw [pathCount_of_not_mem not_mem_nil]
  rfl

theorem perform_singleInterface {s : InterfaceRegistry Unit} (hdeps : s.deps () = none) (hstack : s.openStack = [])
    (hcollect : s.collect_dependencies = false) : ∃ s', s.perform singleInterface (.open ()) = some s' ∧
    s'.outstanding = () :: s.outstanding ∧ s'.refcnt () = unsigned (s.refcnt () + 1) ∧ s'.deps () = none ∧
    s'.openStack = [] ∧ s'.collect_dependencies = false := by
  have hopen : s.open_interfacenode singleInterface 2 () =
      some ((((s.increment ()).pushOpen ()).setCollect false).popOpen) := by
    simp only [open_interfacenode, hcollect, Bool.false_eq_true, if_false, Option.bind_some]
    rw [if_neg (by rw [hstack]; exact not_mem_nil)]
    by_cases hfirst : ((s.increment ()).pushOpen ()).refcnt () = 1
    · simp only [hfirst, if_true, singleInterface, Option.map_some]
    · have hnone : (((s.increment ()).pushOpen ()).setCollect false).deps () = none := hdeps
      simp only [hfirst, depwalk, hnone]
      rfl
  refine ⟨{ (((s.increment ()).pushOpen ()).setCollect false).popOpen with outstanding :=
    () :: s.outstanding },
    ?_, rfl, ?_, hdeps, hstack, rfl⟩
  · show (open_interfacenode singleInterface 2 () s).map _ = _
    rw [hopen]
    rfl
  · show Function.update s.refcnt () (unsigned (s.refcnt () + 1)) () = _
    rw [Function.update_self]

theorem exists_opened (k : Nat) : ∃ s, (machine singleInterface).Reachable s ∧ s.outstanding = List.replicate k () ∧
    s.refcnt () = k % 2 ^ 32 ∧ s.deps () = none ∧ s.openStack = [] ∧ s.collect_dependencies = false := by
  induction k with
  | zero => exact ⟨initial, .of_init rfl, rfl, rfl, rfl, rfl, rfl⟩
  | succ k ih =>
    obtain ⟨s, hs, houtstanding, hrefcnt, hdeps, hstack, hcollect⟩ := ih
    obtain ⟨s', hperform, houtstanding', hrefcnt', hdeps', hstack', hcollect'⟩ :=
      perform_singleInterface hdeps hstack hcollect
    refine ⟨s', hs.step hperform, ?_, ?_, hdeps', hstack', hcollect'⟩
    · rw [houtstanding', houtstanding, replicate_succ]
    · rw [hrefcnt', unsigned]
      omega

/-- **The counter wraps around**, when an interface is opened 2^32 times. -/
theorem not_refcnt_eq_pathsFrom : ∃ s, (machine singleInterface).Reachable s ∧ s.refcnt () = 0 ∧
    pathsFrom singleInterface [] s.outstanding () = 2 ^ 32 := by
  obtain ⟨s, hs, houtstanding, hrefcnt, -⟩ := exists_opened (2 ^ 32)
  refine ⟨s, hs, by rw [hrefcnt, Nat.mod_self], ?_⟩
  rw [houtstanding, pathsFrom, map_replicate, pathCount_singleInterface, sum_replicate_nat,
    Nat.mul_one]

end InterfaceRegistry

end Lumiera.Common
