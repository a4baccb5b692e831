import Lumiera.Common.Interface

/-! # Opening an interface

An interface opened for the first time invokes its acquire function, while it is on the stack; otherwise the
recorded dependencies are walked. In both cases the nodes are counted alike (`open_spec`). -/

namespace Lumiera.Common.InterfaceRegistry

open Function List

variable {ι : Type} [DecidableEq ι] {ifc : Interfaces ι} {s s' s'' : InterfaceRegistry ι}
  {count count' : ι → Nat}

section Finite

variable [Fintype ι]

omit [Fintype ι] in
/-- Recording a dependency for the parent on top of the stack, if demanded. -/
theorem push_dependency_spec {stack : List ι} (x : ι) (hstack : s.openStack = stack)
    (hsettled : Settled ifc s stack) (hcollect : s.collect_dependencies = true → s.openStack ≠ []) :
    ∃ s', (if s.collect_dependencies then s.push_dependency x else some s) = some s' ∧
      Opens ifc (fun _ => 0) [x] s s' ∧ s'.refcnt = s.refcnt ∧ Settled ifc s' stack ∧
      ∀ n, n ∉ stack → s'.deps n = s.deps n := by
  cases hflag : s.collect_dependencies with
  | false =>
    refine ⟨s, rfl, ?_, rfl, hsettled, fun _ _ => rfl⟩
    refine ⟨fun n => rfl, rfl, rfl, rfl, rfl, fun n _ => ?_, [], (append_nil _).symm, fun n => .nil _⟩
    rw [hflag, if_neg fun hboth => Bool.false_ne_true hboth.1, append_nil]
  | true =>
    unfold push_dependency
    cases hopen : s.openStack with
    | nil => exact absurd hopen (hcollect hflag)
    | cons parent rest =>
      have hparent : parent ∈ stack := by
        rw [← hstack, hopen]
        exact mem_cons_self
      have hother : ∀ n, n ∉ stack → update s.deps parent
          (some ((s.deps parent).getD [] ++ [x])) n = s.deps n := by
        intro n hn
        refine update_of_ne (fun hsame => hn ?_) ..
        rw [hsame]
        exact hparent
      refine ⟨_, rfl, ⟨fun n => rfl, hopen.symm, rfl, rfl, rfl, fun n _ => ?_, [],
        (append_nil _).symm, fun n => .nil _⟩, rfl,
        ⟨fun n hn hpos => ?_, fun n hn => ?_, hsettled.stacked⟩, hother⟩
      · rw [hflag, hopen]
        by_cases hn : n = parent
        · subst hn
          rw [if_pos ⟨rfl, rfl⟩]
          show (update s.deps n (some ((s.deps n).getD [] ++ [x])) n).getD [] = _
          rw [update_self]
          rfl
        · rw [if_neg fun hboth => hn (Option.some.inj hboth.2).symm, append_nil]
          exact congrArg (fun deps : Option (List ι) => deps.getD []) (update_of_ne hn ..)
      · refine ⟨?_, (hsettled.used n hn hpos).2⟩
        exact (congrArg (fun deps : Option (List ι) => deps.getD []) (hother n hn)).trans
          (hsettled.used n hn hpos).1
      · have hdeps := hsettled.recorded n hn
        rwa [← hother n hn] at hdeps

/-- What is required in order to open a node. -/
structure Openable (ifc : Interfaces ι) (depth : Nat) (count : ι → Nat) (s : InterfaceRegistry ι) : Prop where
  settled : Settled ifc s s.openStack
  depth : unvisited s.openStack < depth
  fits : Fits s count
  collect : s.collect_dependencies = true → s.openStack ≠ []

/-- Opening several interfaces one after the other, as an acquire function does. -/
theorem open_all {depth : Nat} {interfaces : List ι}
    (hopen : ∀ x s, Openable ifc depth (pathCount ifc.dependencies s.openStack x) s →
      ∃ s', open_interfacenode ifc depth x s = some s' ∧
        Opens ifc (pathCount ifc.dependencies s.openStack x) [x] s s' ∧ Settled ifc s' s'.openStack ∧
        0 < s'.refcnt x)
    (h : Openable ifc depth (pathsFrom ifc s.openStack interfaces) s) :
    ∃ s', interfaces.foldlM (fun s interface => open_interfacenode ifc depth interface s) s = some s' ∧
      Opens ifc (pathsFrom ifc s.openStack interfaces) interfaces s s' ∧ Settled ifc s' s'.openStack ∧
      ∀ d ∈ interfaces, 0 < s'.refcnt d := by
  refine Machine.foldlM_rule
    (C := fun interfaces s => Openable ifc depth (pathsFrom ifc s.openStack interfaces) s)
    (R := fun interfaces s s' => Opens ifc (pathsFrom ifc s.openStack interfaces) interfaces s s' ∧
      Settled ifc s' s'.openStack ∧ ∀ d ∈ interfaces, 0 < s'.refcnt d) ?_ ?_ h
  · intro s h
    exact ⟨.refl ifc s, h.settled, fun d hd => (nomatch hd)⟩
  · intro x interfaces s h
    have hfits := h.fits
    obtain ⟨s₁, hstep, hopens, hsettled, hpos⟩ := hopen x s ⟨h.settled, h.depth, hfits.left, h.collect⟩
    refine ⟨s₁, hstep, ⟨hsettled, ?_, ?_, ?_⟩, ?_⟩
    · rw [hopens.openStack]
      exact h.depth
    · rw [hopens.openStack]
      exact hfits.right hopens
    · rw [hopens.openStack, hopens.collect]
      exact h.collect
    · rintro u ⟨hrest, hsettledRest, hposRest⟩
      rw [hopens.openStack] at hrest
      refine ⟨hopens.trans hrest, hsettledRest, fun d hd => ?_⟩
      rcases mem_cons.mp hd with rfl | hd
      · exact hrest.mono hpos
      · exact hposRest d hd

/-- **Opening for the first time** invokes the acquire function, if there is any; while it opens the
dependencies, these are recorded, unless this was done before. -/
theorem acquire_spec {depth : Nat} {x : ι} {collect : Bool}
    (hopen : ∀ x s, Openable ifc depth (pathCount ifc.dependencies s.openStack x) s →
      ∃ s', open_interfacenode ifc depth x s = some s' ∧
        Opens ifc (pathCount ifc.dependencies s.openStack x) [x] s s' ∧ Settled ifc s' s'.openStack ∧
        0 < s'.refcnt x)
    (hx : x ∉ s.openStack) (hflag : collect = (s.deps x).isNone) (hsettled : Settled ifc s s.openStack)
    (hdepth : unvisited s.openStack < depth + 1)
    (hfits : Fits s (pathCount ifc.dependencies s.openStack x)) :
    ∃ done, (ifc.dependencies x).foldlM (fun s interface => open_interfacenode ifc depth interface s)
        (entered ifc s x collect) = some done ∧
      Opens ifc (pathsFrom ifc (x :: s.openStack) (ifc.dependencies x)) (ifc.dependencies x)
        (entered ifc s x collect) done ∧
      Settled ifc done (x :: s.openStack) ∧ (done.deps x).getD [] = ifc.dependencies x ∧
      ∀ d ∈ ifc.dependencies x, 0 < done.refcnt d := by
  obtain ⟨hself, hfitsInner⟩ := hfits.enter collect hx
  have hopenable : Openable ifc depth (pathsFrom ifc (x :: s.openStack) (ifc.dependencies x))
      (entered ifc s x collect) :=
    ⟨hsettled.enter hself, Nat.lt_of_lt_of_le (unvisited_push hx) (Nat.lt_succ_iff.mp hdepth), hfitsInner,
      fun _ => cons_ne_nil _ _⟩
  obtain ⟨done, hloop, hopens, hsettledDone, hpos⟩ := open_all (s := entered ifc s x collect) hopen hopenable
  have hstack : done.openStack = x :: s.openStack := hopens.openStack
  rw [hstack] at hsettledDone
  refine ⟨done, hloop, hopens, hsettledDone, ?_, hpos⟩
  have hrecorded := hopens.recorded x mem_cons_self
  rw [hrecorded]
  show (s.deps x).getD [] ++ (if collect = true ∧ (x :: s.openStack).head? = some x then _ else []) = _
  rcases hsettled.recorded x hx with hnone | hdeps
  · -- nothing was recorded yet
    have hcollect : collect = true := by
      rw [hflag, hnone]
      rfl
    rw [if_pos ⟨hcollect, rfl⟩, hnone]
    rfl
  · cases hdepsx : s.deps x with
    | none =>
      have hcollect : collect = true := by
        rw [hflag, hdepsx]
        rfl
      rw [if_pos ⟨hcollect, rfl⟩]
      rfl
    | some recorded =>
      have hcollect : collect = false := by
        rw [hflag, hdepsx]
        rfl
      rw [if_neg fun hboth => Bool.false_ne_true (hcollect.symm.trans hboth.1), append_nil, ← hdepsx]
      exact hdeps

/-- **Opening an interface node** counts all cycle-free paths starting there, which do not visit the
nodes on the stack; thereafter the node is in use. -/
theorem open_spec {depth : Nat} {x : ι} (h : Openable ifc depth (pathCount ifc.dependencies s.openStack x) s) : ∃ s',
    open_interfacenode ifc depth x s = some s' ∧ Opens ifc (pathCount ifc.dependencies s.openStack x) [x] s s' ∧
    Settled ifc s' s'.openStack ∧ 0 < s'.refcnt x := by
  induction depth generalizing x s with
  | zero => exact absurd h.depth (Nat.not_lt_zero _)
  | succ depth ih =>
    obtain ⟨s₁, hpush, hrecord, hrefcnt, hsettled₁, -⟩ := push_dependency_spec x rfl h.settled h.collect
    have hstack : s₁.openStack = s.openStack := hrecord.openStack
    unfold open_interfacenode
    rw [hpush, Option.bind_some]
    by_cases hcycle : x ∈ s₁.openStack
    · -- cycles are not counted
      rw [if_pos hcycle]
      rw [hstack] at hcycle
      refine ⟨s₁, rfl, ?_, hstack ▸ hsettled₁, hsettled₁.stacked x hcycle⟩
      rwa [show pathCount ifc.dependencies s.openStack x = fun _ => 0 from
        funext fun n => pathCount_of_mem hcycle]
    · rw [if_neg hcycle]
      have hfits₁ : Fits s₁ (pathCount ifc.dependencies s₁.openStack x) := by
        intro n
        rw [hrefcnt, hstack]
        exact h.fits n
      rw [← hstack] at hsettled₁
      have hdepth₁ : unvisited s₁.openStack < depth + 1 := by
        rw [hstack]
        exact h.depth
      have hself : s₁.refcnt x + 1 < 2 ^ 32 := (hfits₁.enter true hcycle).1
      -- the final step is the same in all cases
      have hfinish : ∀ (collect : Bool) (children : List ι) (done : InterfaceRegistry ι),
          Opens ifc (pathsFrom ifc (x :: s₁.openStack) (ifc.dependencies x)) children
            (entered ifc s₁ x collect) done →
          Settled ifc done (x :: s₁.openStack) → (done.deps x).getD [] = ifc.dependencies x →
          (∀ d ∈ ifc.dependencies x, 0 < done.refcnt d) →
          Opens ifc (pathCount ifc.dependencies s.openStack x) [x] s
              ((done.setCollect s₁.collect_dependencies).popOpen) ∧
            Settled ifc ((done.setCollect s₁.collect_dependencies).popOpen)
              ((done.setCollect s₁.collect_dependencies).popOpen).openStack ∧
            0 < ((done.setCollect s₁.collect_dependencies).popOpen).refcnt x := by
        intro collect children done hopens hsettledDone hdeps hpos
        have hvisit := hopens.visit hcycle hself
        have hall := hrecord.trans hvisit
        simp only [Nat.zero_add] at hall
        rw [hstack] at hall
        refine ⟨hall, ?_, ?_⟩
        · rw [hvisit.openStack]
          exact hsettledDone.leave _ hdeps hpos
        · exact hsettledDone.stacked x mem_cons_self
      have hcount : ((s₁.increment x).pushOpen x).refcnt x = s₁.refcnt x + 1 := increment_refcnt_self hself
      simp only [hcount]
      by_cases hfirst : s₁.refcnt x = 0
      · rw [if_pos (by omega)]
        cases hacquire : ifc.acquire x with
        | none =>
          have hnone : ifc.dependencies x = [] := by
            rw [Interfaces.dependencies, hacquire]
            rfl
          have hunused : ¬ (s₁.refcnt x = 0 ∧ (ifc.acquire x).isSome) := by
            rw [hacquire]
            exact fun hboth => Bool.false_ne_true hboth.2
          have henter : (s₁.increment x).pushOpen x = entered ifc s₁ x s₁.collect_dependencies :=
            enter_of_not_acquired hunused hself s₁.collect_dependencies
          have hopens := Opens.refl ifc (entered ifc s₁ x s₁.collect_dependencies)
          have hnothing : (fun _ => 0) = pathsFrom ifc (x :: s₁.openStack) (ifc.dependencies x) := by
            rw [hnone]
            rfl
          rw [hnothing] at hopens
          refine ⟨_, ?_, hfinish _ _ _ hopens (hsettled₁.enter hself) ?_ ?_⟩
          · rw [henter]
            rfl
          · rcases hsettled₁.recorded x hcycle with hdeps | hdeps
            · rw [hnone]
              exact congrArg (fun deps : Option (List ι) => deps.getD []) hdeps
            · exact hdeps
          · rw [hnone]
            exact fun d hd => absurd hd not_mem_nil
        | some interfaces =>
          have hsome : ifc.dependencies x = interfaces := by
            rw [Interfaces.dependencies, hacquire]
            rfl
          obtain ⟨done, hloop, hopens, hsettledDone, hdeps, hpos⟩ :=
            acquire_spec (fun x s hx => ih hx) hcycle rfl hsettled₁ hdepth₁ hfits₁
          have henter : (((s₁.increment x).pushOpen x).setCollect (s₁.deps x).isNone).note (.acquired x) =
              entered ifc s₁ x (s₁.deps x).isNone :=
            enter_of_acquired ⟨hfirst, by rw [hacquire]; rfl⟩ hself _
          rw [hsome] at hloop
          refine ⟨_, ?_, hfinish _ _ done hopens hsettledDone hdeps hpos⟩
          simp only
          rw [show ((s₁.increment x).pushOpen x).deps x = s₁.deps x from rfl, henter, hloop]
          rfl
      · rw [if_neg (by omega)]
        obtain ⟨hdeps, hused⟩ := hsettled₁.used x hcycle (Nat.pos_of_ne_zero hfirst)
        obtain ⟨done, hwalk, hopens, hsame, hsettledDone⟩ := depwalk_spec (x := x)
          (s := entered ifc s₁ x false) hdeps (fun d hd => entered_pos hself (hused d hd))
          (hsettled₁.enter hself) (Nat.lt_of_lt_of_le (unvisited_push hcycle) (Nat.lt_succ_iff.mp hdepth₁))
          (hfits₁.enter false hcycle).2 rfl
        have hstackDone : done.openStack = x :: s₁.openStack := hopens.openStack
        rw [hstackDone] at hsettledDone
        refine ⟨_, ?_, hfinish _ _ done hopens hsettledDone (hsame ▸ hdeps) fun d hd =>
          hopens.mono (entered_pos hself (hused d hd))⟩
        have hunused : ¬ (s₁.refcnt x = 0 ∧ (ifc.acquire x).isSome) := fun hboth => hfirst hboth.1
        rw [enter_of_not_acquired hunused hself false, hwalk]
        rfl

end Finite

end Lumiera.Common.InterfaceRegistry
