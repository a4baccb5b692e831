import Lumiera.Common.Interface

/-! # Closing an interface

Closing an interface walks the recorded dependencies, or invokes the release function, when it is not in use
thereafter. In both cases the counts are decremented once for each cycle-free path (`close_spec`). -/

namespace Lumiera.Common.InterfaceRegistry

open List

variable {ι : Type} [DecidableEq ι] {ifc : Interfaces ι} {s s' s'' : InterfaceRegistry ι}
  {count count' : ι → Nat}

/-- **Nodes were closed**: the counts were decremented, with the corresponding events, and nothing
else changed; a node released is not in use any more. -/
structure Closes (ifc : Interfaces ι) (count : ι → Nat) (s s' : InterfaceRegistry ι) : Prop where
  refcnt : ∀ n, s.refcnt n = s'.refcnt n + count n
  deps : s'.deps = s.deps
  openStack : s'.openStack = s.openStack
  closeStack : s'.closeStack = s.closeStack
  collect : s'.collect_dependencies = s.collect_dependencies
  outstanding : s'.outstanding = s.outstanding
  log : ∃ events, s'.log = s.log ++ events ∧
    (∀ n, Counted ifc n (s.refcnt n) (eventsOf n events) (s'.refcnt n)) ∧
    (∀ n, count n = 0 → eventsOf n events = []) ∧ ∀ n, .released n ∈ events → s'.refcnt n = 0

theorem Closes.refl (ifc : Interfaces ι) (s : InterfaceRegistry ι) : Closes ifc (fun _ => 0) s s :=
  ⟨fun _ => rfl, rfl, rfl, rfl, rfl, rfl, [], (append_nil _).symm, fun _ => .nil _, fun _ _ => rfl,
    fun _ hn => (nomatch hn)⟩

theorem Closes.trans (h : Closes ifc count s s') (h' : Closes ifc count' s' s'') :
    Closes ifc (fun n => count n + count' n) s s'' := by
  obtain ⟨events, hlog, hcounted, hquiet, hreleased⟩ := h.log
  obtain ⟨events', hlog', hcounted', hquiet', hreleased'⟩ := h'.log
  refine ⟨fun n => ?_, h'.deps.trans h.deps, h'.openStack.trans h.openStack,
    h'.closeStack.trans h.closeStack, h'.collect.trans h.collect, h'.outstanding.trans h.outstanding,
    events ++ events', ?_, fun n => ?_, fun n hn => ?_, fun n hn => ?_⟩
  · rw [h.refcnt, h'.refcnt, Nat.add_assoc, Nat.add_comm (count' n)]
  · rw [hlog', hlog, append_assoc]
  · rw [eventsOf_append]
    exact (hcounted n).trans (hcounted' n)
  · obtain ⟨hfirst, hsecond⟩ := Nat.add_eq_zero_iff.mp hn
    rw [eventsOf_append, hquiet n hfirst, hquiet' n hsecond]
    rfl
  · rcases mem_append.mp hn with hn | hn
    · have hzero := hreleased n hn
      rw [h'.refcnt] at hzero
      exact (Nat.add_eq_zero_iff.mp hzero).1
    · exact hreleased' n hn

section Finite

variable [Fintype ι]

/-- What is required in order to close a node: all nodes in use have their dependencies recorded,
and the counts are sufficient. -/
structure Closable (ifc : Interfaces ι) (depth : Nat) (count : ι → Nat) (s : InterfaceRegistry ι) : Prop where
  recorded : ∀ n, 0 < s.refcnt n → (s.deps n).getD [] = ifc.dependencies n
  depth : unvisited s.closeStack < depth
  counted : ∀ n, count n ≤ s.refcnt n
  fits : ∀ n, s.refcnt n < 2 ^ 32

variable {depth : Nat}

theorem Closable.right (h : Closable ifc depth (fun n => count n + count' n) s)
    (hcloses : Closes ifc count s s') : Closable ifc depth count' s' := by
  refine ⟨fun n hn => ?_, ?_, fun n => ?_, fun n => ?_⟩
  · rw [hcloses.deps]
    refine h.recorded n ?_
    rw [hcloses.refcnt]
    omega
  · rw [hcloses.closeStack]
    exact h.depth
  · have hcount : count n + count' n ≤ s.refcnt n := h.counted n
    rw [hcloses.refcnt] at hcount
    omega
  · have hfits := h.fits n
    rw [hcloses.refcnt] at hfits
    omega

theorem Closable.left (h : Closable ifc depth (fun n => count n + count' n) s) : Closable ifc depth count s := by
  refine ⟨h.recorded, h.depth, fun n => ?_, h.fits⟩
  have hcount : count n + count' n ≤ s.refcnt n := h.counted n
  omega

/-- The state in which the dependencies of a node are closed: it is on the stack. -/
def leaving (ifc : Interfaces ι) (s : InterfaceRegistry ι) (x : ι) : InterfaceRegistry ι :=
  { s.pushClose x with
    log := s.log ++ (if s.refcnt x = 1 ∧ (ifc.release x).isSome then [.released x] else []) }

variable {x : ι}

theorem Closable.leave (hx : x ∉ s.closeStack)
    (h : Closable ifc (depth + 1) (pathCount ifc.dependencies s.closeStack x) s) :
    0 < s.refcnt x ∧
      Closable ifc depth (pathsFrom ifc (x :: s.closeStack) (ifc.dependencies x)) (leaving ifc s x) := by
  have hpos : 0 < s.refcnt x := Nat.lt_of_lt_of_le (pathCount_self_pos _ hx) (h.counted x)
  refine ⟨hpos, h.recorded, ?_, fun n => ?_, h.fits⟩
  · exact Nat.lt_of_lt_of_le (unvisited_push hx) (Nat.lt_succ_iff.mp h.depth)
  · have hcount := h.counted n
    rw [pathCount_of_not_mem hx] at hcount
    exact Nat.le_trans (Nat.le_add_left _ _) hcount

omit [DecidableEq ι] [Fintype ι] in
theorem pathsFrom_to_mem {stack nodes : List ι} {n : ι} (h : n ∈ stack) : pathsFrom ifc stack nodes n = 0 := by
  refine sum_eq_zero fun c hc => ?_
  obtain ⟨d, -, rfl⟩ := mem_map.mp hc
  exact pathCount_to_mem h

omit [Fintype ι] in
theorem decrement_refcnt_self (hpos : 0 < s.refcnt x) (h : s.refcnt x < 2 ^ 32) :
    (s.decrement x).refcnt x = s.refcnt x - 1 :=
  (Function.update_self ..).trans (unsigned_sub_one hpos h)

omit [Fintype ι] in
theorem decrement_refcnt_of_ne {n : ι} (h : n ≠ x) : (s.decrement x).refcnt n = s.refcnt n :=
  Function.update_of_ne h ..

omit [Fintype ι] [DecidableEq ι] in
theorem node_of_mem_released {c : Nat} {event : InterfaceEvent ι}
    (h : event ∈ (if c = 1 ∧ (ifc.release x).isSome then [InterfaceEvent.released x] else [])) :
    event = .released x ∧ c = 1 := by
  split_ifs at h with hreleased
  · exact ⟨mem_singleton.mp h, hreleased.1⟩
  · cases h

/-- **Leaving a node**: when its dependencies were closed while it was on the stack, it was counted
for all paths starting there. -/
theorem Closes.visit {done : InterfaceRegistry ι} (hx : x ∉ s.closeStack) (hpos : 0 < s.refcnt x)
    (hfits : s.refcnt x < 2 ^ 32)
    (h : Closes ifc (pathsFrom ifc (x :: s.closeStack) (ifc.dependencies x)) (leaving ifc s x) done) :
    Closes ifc (pathCount ifc.dependencies s.closeStack x) s (done.popClose.decrement x) := by
  have hzero : pathsFrom ifc (x :: s.closeStack) (ifc.dependencies x) x = 0 :=
    pathsFrom_to_mem mem_cons_self
  have hself : done.refcnt x = s.refcnt x := by
    have hrefcnt : s.refcnt x = done.refcnt x + _ := h.refcnt x
    rw [hrefcnt, hzero, Nat.add_zero]
  have hdecrement : (done.popClose.decrement x).refcnt x = s.refcnt x - 1 := by
    rw [decrement_refcnt_self (s := done.popClose) (by rwa [← hself] at hpos) (by rwa [← hself] at hfits)]
    show done.refcnt x - 1 = _
    rw [hself]
  have hother : ∀ n, n ≠ x → (done.popClose.decrement x).refcnt n = done.refcnt n := fun n hn =>
    decrement_refcnt_of_ne (s := done.popClose) hn
  have hcount : ∀ n, n ≠ x → pathCount ifc.dependencies s.closeStack x n =
      pathsFrom ifc (x :: s.closeStack) (ifc.dependencies x) n := by
    intro n hn
    rw [pathCount_of_not_mem hx, if_neg hn, Nat.zero_add]
    rfl
  obtain ⟨events, hlog, hcounted, hquiet, hreleased⟩ := h.log
  generalize hpre : (if s.refcnt x = 1 ∧
    (ifc.release x).isSome then [InterfaceEvent.released x] else []) = pre
  have hmem : ∀ event ∈ pre, event = .released x ∧ s.refcnt x = 1 := by
    intro event hevent
    rw [← hpre] at hevent
    exact node_of_mem_released hevent
  refine ⟨fun n => ?_, h.deps, h.openStack, ?_, h.collect, h.outstanding,
    pre ++ (events ++ [.decremented x (s.refcnt x - 1)]), ?_, fun n => ?_, fun n hn => ?_, fun n hn => ?_⟩
  · by_cases hn : n = x
    · subst hn
      rw [pathCount_of_not_mem hx, if_pos rfl]
      have hnone : ((ifc.dependencies n).map fun d => pathCount ifc.dependencies
          (n :: s.closeStack) d n).sum = 0 :=
        hzero
      omega
    · rw [hother n hn, hcount n hn]
      exact h.refcnt n
  · show done.closeStack.tail = _
    rw [h.closeStack]
    rfl
  · show done.log ++ [.decremented x (unsigned (done.refcnt x - 1))] = _
    rw [hself, unsigned_sub_one hpos hfits, hlog]
    show s.log ++ (if s.refcnt x = 1 ∧ (ifc.release x).isSome then [.released x] else []) ++ events ++ _ = _
    rw [hpre]
    simp only [append_assoc]
  · by_cases hn : n = x
    · -- nothing happens at the node while it is on the stack
      subst hn
      have hown : eventsOf n pre = pre := eventsOf_of_forall fun event hevent => by
        rw [(hmem event hevent).1]
        rfl
      have hlast : eventsOf n [InterfaceEvent.decremented n (s.refcnt n - 1)] =
          [.decremented n (s.refcnt n - 1)] := eventsOf_of_forall (by simp [InterfaceEvent.node])
      rw [hdecrement, eventsOf_append, eventsOf_append, hown, hquiet n hzero, hlast, ← hpre]
      obtain ⟨c, hc⟩ : ∃ c, s.refcnt n = c + 1 := ⟨s.refcnt n - 1, by omega⟩
      rw [hc]
      have hevents : Counted ifc n (c + 1) _ c := .decremented (.nil c)
      simpa using hevents
    · rw [hother n hn, eventsOf_append, eventsOf_append,
        eventsOf_of_forall_ne pre fun event hevent hsame => ?_,
        eventsOf_of_forall_ne [_] (by simpa [InterfaceEvent.node] using fun hsame => hn hsame.symm),
        nil_append, append_nil]
      · exact hcounted n
      · rw [(hmem event hevent).1] at hsame
        exact hn hsame.symm
  · have hne : n ≠ x := by
      rintro rfl
      have hself := pathCount_self_pos ifc.dependencies hx
      omega
    rw [hcount n hne] at hn
    rw [eventsOf_append, eventsOf_append, hquiet n hn,
      eventsOf_of_forall_ne pre fun event hevent hsame => ?_,
      eventsOf_of_forall_ne [_] (by simpa [InterfaceEvent.node] using fun hsame => hne hsame.symm)]
    · rfl
    · rw [(hmem event hevent).1] at hsame
      exact hne hsame.symm
  · rcases mem_append.mp hn with hn | hn
    · obtain ⟨hsame, hone⟩ := hmem _ hn
      obtain rfl : n = x := InterfaceEvent.released.inj hsame
      rw [hdecrement, hone]
    · rcases mem_append.mp hn with hn | hn
      · have hzero := hreleased n hn
        by_cases hne : n = x
        · subst hne
          omega
        · rw [hother n hne, hzero]
      · simp at hn

theorem close_all {interfaces : List ι}
    (hclose : ∀ x s, Closable ifc depth (pathCount ifc.dependencies s.closeStack x) s →
      ∃ s', interfacenode_close ifc depth x s = some s' ∧
        Closes ifc (pathCount ifc.dependencies s.closeStack x) s s')
    (h : Closable ifc depth (pathsFrom ifc s.closeStack interfaces) s) :
    ∃ s', interfaces.foldlM (fun s interface => interfacenode_close ifc depth interface s) s = some s' ∧
      Closes ifc (pathsFrom ifc s.closeStack interfaces) s s' := by
  refine Machine.foldlM_rule
    (C := fun interfaces s => Closable ifc depth (pathsFrom ifc s.closeStack interfaces) s)
    (R := fun interfaces s s' => Closes ifc (pathsFrom ifc s.closeStack interfaces) s s') ?_ ?_ h
  · intro s _
    exact .refl ifc s
  · intro x interfaces s h
    obtain ⟨s₁, hstep, hcloses⟩ := hclose x s h.left
    refine ⟨s₁, hstep, ?_, fun u hrest => ?_⟩
    · rw [hcloses.closeStack]
      exact h.right hcloses
    · rw [hcloses.closeStack] at hrest
      exact hcloses.trans hrest

/-- **Closing an interface node** takes back all cycle-free paths starting there, which do not visit
the nodes on the stack. -/
theorem close_spec (h : Closable ifc depth (pathCount ifc.dependencies s.closeStack x) s) :
    ∃ s', interfacenode_close ifc depth x s = some s' ∧ Closes ifc (pathCount ifc.dependencies s.closeStack x) s s' :=
    by
  induction depth generalizing x s with
  | zero => exact absurd h.depth (Nat.not_lt_zero _)
  | succ depth ih =>
    unfold interfacenode_close
    by_cases hcycle : x ∈ s.closeStack
    · -- cycles are not counted
      rw [if_pos hcycle]
      refine ⟨s, rfl, ?_⟩
      rw [show pathCount ifc.dependencies s.closeStack x = fun _ => 0 from
        funext fun n => pathCount_of_mem hcycle]
      exact .refl ifc s
    · rw [if_neg hcycle]
      obtain ⟨hpos, hclosable⟩ := h.leave hcycle
      -- whatever list of the dependencies is closed, the result is the same
      have hdone : ∀ interfaces : List ι, interfaces.Perm (ifc.dependencies x) →
          ∃ done, interfaces.foldlM (fun s interface => interfacenode_close ifc depth interface s)
              (leaving ifc s x) = some done ∧
            Closes ifc (pathCount ifc.dependencies s.closeStack x) s (done.popClose.decrement x) := by
        intro interfaces hperm
        have hpaths : pathsFrom ifc (x :: s.closeStack) interfaces =
            pathsFrom ifc (x :: s.closeStack) (ifc.dependencies x) :=
          funext fun n => (hperm.map _).sum_eq
        rw [← hpaths] at hclosable
        obtain ⟨done, hloop, hcloses⟩ := close_all (s := leaving ifc s x) (fun x s hx => ih hx) hclosable
        have hcloses' : Closes ifc (pathsFrom ifc (x :: s.closeStack) (ifc.dependencies x))
            (leaving ifc s x) done := by
          rw [← hpaths]
          exact hcloses
        exact ⟨done, hloop, hcloses'.visit hcycle hpos (h.fits x)⟩
      have hquiet : ¬ (s.refcnt x = 1 ∧ (ifc.release x).isSome) → leaving ifc s x = s.pushClose x := by
        intro hnot
        unfold leaving
        rw [if_neg hnot, append_nil]
        rfl
      simp only [show (s.pushClose x).refcnt x = s.refcnt x from rfl]
      by_cases hlast : s.refcnt x = 1
      · rw [if_pos hlast]
        cases hrelease : ifc.release x with
        | none =>
          have hperm : ([] : List ι).Perm (ifc.dependencies x) := by
            have hbalanced := ifc.balanced x
            rwa [hrelease] at hbalanced
          obtain ⟨done, hloop, hcloses⟩ := hdone [] hperm
          have hsame : leaving ifc s x = done := Option.some.inj hloop
          rw [hquiet (by rw [hrelease]; exact fun hboth => Bool.false_ne_true hboth.2)] at hsame
          exact ⟨_, rfl, hsame ▸ hcloses⟩
        | some interfaces =>
          have hperm : interfaces.Perm (ifc.dependencies x) := by
            have hbalanced := ifc.balanced x
            rwa [hrelease] at hbalanced
          obtain ⟨done, hloop, hcloses⟩ := hdone interfaces hperm
          have hleaving : leaving ifc s x = (s.pushClose x).note (.released x) := by
            unfold leaving
            rw [if_pos ⟨hlast, by rw [hrelease]; rfl⟩]
            rfl
          rw [hleaving] at hloop
          simp only
          exact ⟨_, by rw [hloop]; rfl, hcloses⟩
      · rw [if_neg hlast]
        obtain ⟨done, hloop, hcloses⟩ := hdone _ (List.Perm.refl _)
        rw [hquiet fun hboth => hlast hboth.1] at hloop
        refine ⟨_, ?_, hcloses⟩
        rw [show (s.pushClose x).deps x = s.deps x from rfl, h.recorded x hpos, hloop]
        rfl

end Finite

end Lumiera.Common.InterfaceRegistry
