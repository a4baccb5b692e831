import Mathlib.Tactic.Common
import Lumiera.Steam.Control.CommandClone

/-! # Isolation of command clones

The functors of each command are bound to the storage this command uses, and no two commands share
their storage. Thus an operation on a command changes this storage only; and undo uses the memento from the
latest capture of the same command, or else the one taken over when the command was created as a clone. -/

namespace Lumiera.Steam.Control.Undo

open Function

universe u

variable {Args MEM Session : Type u}

/-- The memento held in storage, if any was captured. -/
def StorageHolder.memento (holder : StorageHolder Args MEM Session) : Option MEM :=
  if holder.isCaptured_ then some holder.memento_ else none

namespace Commands

variable {s s' s'' : Commands Args MEM Session} {nullValue : MEM} {cmd : Nat}

/-! ## Wiring -/

/-- **The wiring of all commands**: the functors are bound to the own storage, which is not shared; state was
captured with arguments bound only, and the memento is the one recorded. -/
structure Wired (s : Commands Args MEM Session) : Prop where
  tied : ∀ c < s.cnt, (s.impls c).undo_ = .tie (s.closure c) (s.impls c).pClo_
  separate : ∀ c < s.cnt, ∀ c' < s.cnt, (s.impls c).pClo_ = (s.impls c').pClo_ → c = c'
  allocated : ∀ c < s.cnt, (s.impls c).pClo_ < s.allocated
  bound : ∀ c < s.cnt, s.canUndo c → s.canExec c
  recorded : ∀ c < s.cnt, (s.closure c).memento = s.recorded c

theorem wired_init (h : s.cnt = 0) : s.Wired := by
  have hnone : ∀ c, ¬ c < s.cnt := by
    intro c hc
    rw [h] at hc
    exact Nat.not_lt_zero c hc
  exact ⟨fun c hc => absurd hc (hnone c), fun c hc => absurd hc (hnone c),
    fun c hc => absurd hc (hnone c), fun c hc => absurd hc (hnone c), fun c hc => absurd hc (hnone c)⟩

/-- Allocating a new frame with properly recorded memento. -/
theorem Wired.allocate (h : s.Wired) (operation : Functor Args Session PUnit.{u + 1})
    (holder : StorageHolder Args MEM Session) (inherited : Option MEM)
    (hbound : holder.isCaptured_ → holder.arguments_.isSome)
    (hmemento : holder.memento = inherited) :
    (s.allocate operation holder inherited).Wired ∧
      ∀ c < s.cnt, (s.allocate operation holder inherited).closure c = s.closure c := by
  have hnew : (s.allocate operation holder inherited).impls s.cnt =
      ⟨operation, .tie holder s.allocated, s.allocated⟩ := update_self ..
  have hself : (s.allocate operation holder inherited).closure s.cnt = holder := by
    unfold closure
    rw [hnew]
    exact update_self ..
  have hold : ∀ c < s.cnt, (s.allocate operation holder inherited).impls c = s.impls c :=
    fun c hc => update_of_ne (Nat.ne_of_lt hc) _ _
  have hkept : ∀ c < s.cnt, (s.allocate operation holder inherited).closure c = s.closure c := by
    intro c hc
    unfold closure
    rw [hold c hc]
    exact update_of_ne (Nat.ne_of_lt (h.allocated c hc)) _ _
  have hcases : ∀ c < (s.allocate operation holder inherited).cnt, c < s.cnt ∨ c = s.cnt :=
    fun c hc => Nat.lt_succ_iff_lt_or_eq.mp hc
  refine ⟨⟨?_, ?_, ?_, ?_, ?_⟩, hkept⟩
  · intro c hc
    rcases hcases c hc with hc | rfl
    · rw [hold c hc, hkept c hc]
      exact h.tied c hc
    · rw [hself, hnew]
  · intro c hc c' hc' hsame
    rcases hcases c hc with hc | rfl <;> rcases hcases c' hc' with hc' | rfl
    · rw [hold c hc, hold c' hc'] at hsame
      exact h.separate c hc c' hc' hsame
    · rw [hold c hc, hnew] at hsame
      exact absurd hsame (Nat.ne_of_lt (h.allocated c hc))
    · rw [hold c' hc', hnew] at hsame
      exact absurd hsame.symm (Nat.ne_of_lt (h.allocated c' hc'))
    · rfl
  · intro c hc
    rcases hcases c hc with hc | rfl
    · rw [hold c hc]
      exact Nat.lt_succ_of_lt (h.allocated c hc)
    · rw [hnew]
      exact Nat.lt_succ_self _
  · intro c hc
    unfold canUndo canExec
    rcases hcases c hc with hc | rfl
    · rw [hkept c hc]
      exact h.bound c hc
    · rw [hself]
      exact hbound
  · intro c hc
    rcases hcases c hc with hc | rfl
    · have hne := Nat.ne_of_lt hc
      have hrecorded : (s.allocate operation holder inherited).recorded c = s.recorded c := by
        show (update s.captured s.cnt none c).or (update s.inherited s.cnt inherited c) = _
        rw [update_of_ne hne, update_of_ne hne]
        rfl
      rw [hkept c hc, hrecorded]
      exact h.recorded c hc
    · have hrecorded : (s.allocate operation holder inherited).recorded s.cnt = inherited := by
        show (update s.captured s.cnt none s.cnt).or
          (update s.inherited s.cnt inherited s.cnt) = _
        rw [update_self, update_self]
        rfl
      rw [hself, hrecorded, hmemento]

/-! ## Operations on a single command -/

/-- **Only one command is changed**: its storage and what is recorded of it, but not the functors. -/
structure OnlyOn (cmd : Nat) (s s' : Commands Args MEM Session) : Prop where
  cnt : s'.cnt = s.cnt
  impls : s'.impls = s.impls
  allocated : s'.allocated = s.allocated
  others : ∀ address, address ≠ (s.impls cmd).pClo_ → s'.holders address = s.holders address
  captured : ∀ c, c ≠ cmd → s'.captured c = s.captured c
  inherited : ∀ c, c ≠ cmd → s'.inherited c = s.inherited c
  undo : (s'.closure cmd).undo_ = (s.closure cmd).undo_
  capture : (s'.closure cmd).capture_ = (s.closure cmd).capture_

theorem OnlyOn.refl (cmd : Nat) (s : Commands Args MEM Session) : OnlyOn cmd s s :=
  ⟨rfl, rfl, rfl, fun _ _ => rfl, fun _ _ => rfl, fun _ _ => rfl, rfl, rfl⟩

theorem OnlyOn.trans (h : OnlyOn cmd s s') (h' : OnlyOn cmd s' s'') : OnlyOn cmd s s'' where
  cnt := h'.cnt.trans h.cnt
  impls := h'.impls.trans h.impls
  allocated := h'.allocated.trans h.allocated
  others address hne := (h'.others address (by rwa [h.impls])).trans (h.others address hne)
  captured c hne := (h'.captured c hne).trans (h.captured c hne)
  inherited c hne := (h'.inherited c hne).trans (h.inherited c hne)
  undo := h'.undo.trans h.undo
  capture := h'.capture.trans h.capture

theorem OnlyOn.closure (h : OnlyOn cmd s s') (hw : s.Wired) (hcmd : cmd < s.cnt) {c : Nat} (hc : c < s.cnt)
    (hne : c ≠ cmd) : s'.closure c = s.closure c := by
  unfold Commands.closure
  rw [h.impls]
  refine h.others _ fun hsame => hne ?_
  exact hw.separate c hc cmd hcmd hsame

theorem OnlyOn.wired (h : OnlyOn cmd s s') (hw : s.Wired) (hcmd : cmd < s.cnt)
    (hbound : s'.canUndo cmd → s'.canExec cmd)
    (hrecorded : (s'.closure cmd).memento = s'.recorded cmd) : s'.Wired := by
  refine ⟨?_, ?_, ?_, ?_, ?_⟩
  · intro c hc
    rw [h.cnt] at hc
    have htied := hw.tied c hc
    rw [h.impls]
    by_cases heq : c = cmd
    · subst heq
      rw [UndoMutation.tie, h.undo, h.capture]
      exact htied
    · rw [h.closure hw hcmd hc heq]
      exact htied
  · intro c hc c' hc'
    rw [h.cnt] at hc hc'
    rw [h.impls]
    exact hw.separate c hc c' hc'
  · intro c hc
    rw [h.cnt] at hc
    rw [h.impls, h.allocated]
    exact hw.allocated c hc
  · intro c hc
    rw [h.cnt] at hc
    by_cases heq : c = cmd
    · subst heq
      exact hbound
    · unfold canUndo canExec
      rw [h.closure hw hcmd hc heq]
      exact hw.bound c hc
  · intro c hc
    rw [h.cnt] at hc
    by_cases heq : c = cmd
    · subst heq
      exact hrecorded
    · rw [h.closure hw hcmd hc heq, Commands.recorded, h.captured c heq, h.inherited c heq]
      exact hw.recorded c hc

theorem onlyOn_setHolder (cmd : Nat) (holder : StorageHolder Args MEM Session)
    (hundo : holder.undo_ = (s.closure cmd).undo_) (hcapture : holder.capture_ = (s.closure cmd).capture_) :
    OnlyOn cmd s (s.setHolder (s.impls cmd).pClo_ holder) ∧
      (s.setHolder (s.impls cmd).pClo_ holder).closure cmd = holder := by
  have hself : (s.setHolder (s.impls cmd).pClo_ holder).closure cmd = holder := update_self ..
  refine ⟨⟨rfl, rfl, rfl, ?_, fun _ _ => rfl, fun _ _ => rfl, ?_, ?_⟩, hself⟩
  · intro address hne
    exact update_of_ne hne _ _
  · rw [hself, hundo]
  · rw [hself, hcapture]

variable (s cmd) in
/-- Invoking a functor may change the arguments bound and the session, but not the memento. -/
theorem invoke_spec {R : Type u} (func : Functor Args Session R) :
    OnlyOn cmd s (s.invoke (s.impls cmd).pClo_ func).1 ∧
      (s.invoke (s.impls cmd).pClo_ func).1.canExec cmd = s.canExec cmd ∧
      ((s.invoke (s.impls cmd).pClo_ func).1.closure cmd).memento = (s.closure cmd).memento ∧
      (s.invoke (s.impls cmd).pClo_ func).1.canUndo cmd = s.canUndo cmd ∧
      (s.invoke (s.impls cmd).pClo_ func).1.recorded cmd = s.recorded cmd ∧
      (s.invoke (s.impls cmd).pClo_ func).1.undone = s.undone := by
  unfold invoke
  cases hargs : (s.holders (s.impls cmd).pClo_).arguments_ with
  | none => exact ⟨.refl cmd s, rfl, rfl, rfl, rfl, rfl⟩
  | some args =>
    obtain ⟨honly, hself⟩ := onlyOn_setHolder cmd
      { s.closure cmd with arguments_ := some (func args s.session).1 } rfl rfl
    have hexec : s.canExec cmd = true := by
      rw [canExec, closure, hargs]
      rfl
    refine ⟨⟨rfl, rfl, rfl, honly.others, fun _ _ => rfl, fun _ _ => rfl, honly.undo, honly.capture⟩,
      ?_, ?_, ?_, rfl, rfl⟩
    · rw [hexec]
      exact congrArg (fun holder => holder.arguments_.isSome) hself
    · exact (congrArg StorageHolder.memento hself).trans rfl
    · exact (congrArg StorageHolder.isCaptured_ hself).trans rfl

theorem canExec_of_result {R : Type u} {func : Functor Args Session R} {result : R}
    (h : (s.invoke (s.impls cmd).pClo_ func).2 = some result) : s.canExec cmd = true := by
  unfold invoke at h
  unfold canExec closure
  cases hargs : (s.holders (s.impls cmd).pClo_).arguments_ with
  | none =>
    rw [hargs] at h
    cases h
  | some args => rfl

/-- Capturing: the memento is stored with the command, and recorded. -/
theorem invokeCapture_spec (hw : s.Wired) (hcmd : cmd < s.cnt) : OnlyOn cmd s (s.invokeCapture cmd).1 ∧
    (s.invokeCapture cmd).1.Wired ∧ (s.invokeCapture cmd).1.undone = s.undone := by
  obtain ⟨honly, hexec, hmemento, hundo, hrecorded, hundone⟩ :=
    invoke_spec s cmd (s.impls cmd).undo_.captureMemento_
  have hwired : (s.invoke (s.impls cmd).pClo_ (s.impls cmd).undo_.captureMemento_).1.Wired := by
    refine honly.wired hw hcmd ?_ ?_
    · rw [hexec, hundo]
      exact hw.bound cmd hcmd
    · rw [hmemento, hrecorded]
      exact hw.recorded cmd hcmd
  unfold invokeCapture
  simp only
  cases hres : s.invoke (s.impls cmd).pClo_ (s.impls cmd).undo_.captureMemento_ with
  | mk s₁ result =>
    rw [hres] at honly hexec hundone hwired
    cases result with
    | none => exact ⟨honly, hwired, hundone⟩
    | some mementoVal =>
      have htie : (s.impls cmd).undo_.captureTie = (s₁.impls cmd).pClo_ := by
        rw [hw.tied cmd hcmd, honly.impls]
        rfl
      have hargs : s₁.canExec cmd = true := by
        rw [hexec]
        exact canExec_of_result (congrArg Prod.snd hres)
      simp only [htie]
      obtain ⟨honly', hself⟩ := onlyOn_setHolder (s := s₁) cmd
        { s₁.closure cmd with memento_ := mementoVal, isCaptured_ := true } rfl rfl
      have honly₂ : OnlyOn cmd s₁ { s₁.setHolder (s₁.impls cmd).pClo_
          { s₁.holders (s₁.impls cmd).pClo_ with memento_ := mementoVal, isCaptured_ := true } with
          captured := update s₁.captured cmd (some mementoVal) } :=
        ⟨rfl, rfl, rfl, honly'.others, fun c hne => update_of_ne hne _ _, fun _ _ => rfl,
          honly'.undo, honly'.capture⟩
      have hcmd₁ : cmd < s₁.cnt := by
        rwa [honly.cnt]
      refine ⟨honly.trans honly₂, honly₂.wired hwired hcmd₁ (fun _ => ?_) ?_, hundone⟩
      · refine Eq.trans ?_ hargs
        exact (congrArg (fun holder => holder.arguments_.isSome) hself).trans rfl
      · refine (congrArg StorageHolder.memento hself).trans ?_
        show some mementoVal = (update s₁.captured cmd (some mementoVal) cmd).or _
        rw [update_self]
        rfl

theorem exec_spec (hw : s.Wired) (hcmd : cmd < s.cnt) :
    OnlyOn cmd s (s.exec cmd) ∧ (s.exec cmd).Wired ∧ (s.exec cmd).undone = s.undone := by
  unfold exec
  split_ifs with hexec
  · obtain ⟨honly, hwired, hundone⟩ := invokeCapture_spec hw hcmd
    cases hres : s.invokeCapture cmd with
    | mk s₁ result =>
      rw [hres] at honly hwired hundone
      cases result with
      | none => exact ⟨honly, hwired, hundone⟩
      | some done =>
        have hcmd₁ : cmd < s₁.cnt := by
          rwa [honly.cnt]
        obtain ⟨honly₁, hexec₁, hmemento₁, hundo₁, hrecorded₁, hundone₁⟩ :=
          invoke_spec s₁ cmd (s₁.impls cmd).do_
        refine ⟨honly.trans honly₁, honly₁.wired hwired hcmd₁ ?_ ?_, hundone₁.trans hundone⟩
        · rw [hexec₁, hundo₁]
          exact hwired.bound cmd hcmd₁
        · rw [hmemento₁, hrecorded₁]
          exact hwired.recorded cmd hcmd₁
  · exact ⟨.refl cmd s, hw, rfl⟩

/-- Undoing a command invokes its undo function with the own arguments and the memento recorded. -/
theorem undo_spec (hw : s.Wired) (hcmd : cmd < s.cnt) :
    OnlyOn cmd s (s.undo cmd) ∧ (s.undo cmd).Wired ∧
      (s.canUndo cmd = false → (s.undo cmd).undone = s.undone) ∧
      (s.canUndo cmd = true → ∃ args mementoVal, (s.closure cmd).arguments_ = some args ∧
        s.recorded cmd = some mementoVal ∧
        (s.undo cmd).undone = s.undone ++ [(cmd, args, mementoVal)]) := by
  unfold undo
  split_ifs with hundo
  · obtain ⟨args, hargs⟩ := Option.isSome_iff_exists.mp (hw.bound cmd hcmd hundo)
    have htie : (s.impls cmd).undo_.undoTie = (s.impls cmd).pClo_ := by
      rw [hw.tied cmd hcmd]
      rfl
    have hcaptured : (s.holders (s.impls cmd).pClo_).isCaptured_ = true := hundo
    have hrecorded : s.recorded cmd = some (s.closure cmd).memento_ := by
      have hcaptured' : (s.closure cmd).isCaptured_ = true := hundo
      rw [← hw.recorded cmd hcmd, StorageHolder.memento, if_pos hcaptured']
    obtain ⟨honly, hexec₁, hmemento₁, hundo₁, hrecorded₁, hundone₁⟩ :=
      invoke_spec s cmd ((s.impls cmd).undo_.undo (s.closure cmd).memento_)
    have hwired : (s.invoke (s.impls cmd).pClo_
        ((s.impls cmd).undo_.undo (s.closure cmd).memento_)).1.Wired := by
      refine honly.wired hw hcmd ?_ ?_
      · rw [hexec₁, hundo₁]
        exact hw.bound cmd hcmd
      · rw [hmemento₁, hrecorded₁]
        exact hw.recorded cmd hcmd
    unfold invokeUndo
    simp only [hargs, htie, hcaptured, if_true]
    refine ⟨⟨honly.cnt, honly.impls, honly.allocated, honly.others, honly.captured, honly.inherited,
      honly.undo, honly.capture⟩, ⟨hwired.tied, hwired.separate, hwired.allocated, hwired.bound,
      hwired.recorded⟩, fun hnot => absurd hundo (hnot ▸ Bool.false_ne_true), fun _ => ?_⟩
    exact ⟨args, _, rfl, hrecorded, congrArg (· ++ [(cmd, args, (s.closure cmd).memento_)]) hundone₁⟩
  · exact ⟨.refl cmd s, hw, fun _ => rfl, fun hcan => absurd hcan hundo⟩

theorem bindArg_spec (hw : s.Wired) (hcmd : cmd < s.cnt) (args : Args) :
    OnlyOn cmd s (s.bindArg cmd args) ∧ (s.bindArg cmd args).Wired := by
  obtain ⟨honly, hself⟩ := onlyOn_setHolder (s := s) cmd
    { s.closure cmd with arguments_ := some args } rfl rfl
  refine ⟨honly, honly.wired hw hcmd (fun _ => ?_) ?_⟩
  · exact (congrArg (fun holder => holder.arguments_.isSome) hself).trans rfl
  · exact (congrArg StorageHolder.memento hself).trans (hw.recorded cmd hcmd)

theorem unbind_spec (hw : s.Wired) (hcmd : cmd < s.cnt) (nullValue : MEM) :
    OnlyOn cmd s (s.unbind nullValue cmd) ∧ (s.unbind nullValue cmd).Wired := by
  obtain ⟨honly, hself⟩ := onlyOn_setHolder (s := s) cmd
    { s.closure cmd with arguments_ := none, memento_ := nullValue, isCaptured_ := false } rfl rfl
  have honly' : OnlyOn cmd s (s.unbind nullValue cmd) :=
    ⟨rfl, rfl, rfl, honly.others, fun c hne => update_of_ne hne _ _,
      fun c hne => update_of_ne hne _ _, honly.undo, honly.capture⟩
  refine ⟨honly', honly'.wired hw hcmd (fun hcan => ?_) ?_⟩
  · have hnot : (s.unbind nullValue cmd).canUndo cmd = false :=
      (congrArg StorageHolder.isCaptured_ hself).trans rfl
    rw [hnot] at hcan
    exact absurd hcan Bool.false_ne_true
  · refine (congrArg StorageHolder.memento hself).trans ?_
    show none = (update s.captured cmd none cmd).or (update s.inherited cmd none cmd)
    rw [update_self, update_self]
    rfl

theorem createCloneImpl_spec (hw : s.Wired) (hcmd : cmd < s.cnt) :
    (s.createCloneImpl cmd).Wired ∧ ∀ c < s.cnt, (s.createCloneImpl cmd).closure c = s.closure c :=
  hw.allocate _ _ _ (hw.bound cmd hcmd) (hw.recorded cmd hcmd)

/-! ## Runs -/

end Commands

/-- The command an operation is performed on; cloning does not change the origin. -/
def Operation.target : Operation Args MEM Session → Option Nat
  | .define .. => none
  | .newInstance _ => none
  | .storeDef .. => none
  | .bindArg cmd _ => some cmd
  | .unbind cmd => some cmd
  | .exec cmd => some cmd
  | .undo cmd => some cmd

namespace Commands

variable {s s' : Commands Args MEM Session} {nullValue : MEM} {cmd : Nat}

variable (nullValue) in
/-- Each operation keeps the wiring, and the storage of all commands it is not performed on. -/
theorem perform_spec (hw : s.Wired) (op : Operation Args MEM Session) : (s.perform nullValue op).Wired ∧ ∀ c < s.cnt,
    op.target ≠ some c → (s.perform nullValue op).closure c = s.closure c := by
  have hsingle : ∀ cmd s', cmd < s.cnt → OnlyOn cmd s s' ∧ s'.Wired →
      s'.Wired ∧ ∀ c < s.cnt, some cmd ≠ some c → s'.closure c = s.closure c := by
    rintro cmd s' hcmd ⟨honly, hwired⟩
    exact ⟨hwired, fun c hc hne => honly.closure hw hcmd hc fun heq => hne (congrArg some heq.symm)⟩
  have hsame : s.Wired ∧ ∀ c < s.cnt, op.target ≠ some c → s.closure c = s.closure c :=
    ⟨hw, fun _ _ _ => rfl⟩
  have hregistered : ∀ (s' : Commands Args MEM Session) registry, s'.Wired →
      ({ s' with registry := registry } : Commands Args MEM Session).Wired :=
    fun s' registry h => ⟨h.tied, h.separate, h.allocated, h.bound, h.recorded⟩
  cases op with
  | define cmdID definition =>
    simp only [perform]
    split_ifs
    · exact hsame
    · obtain ⟨hwired, hkept⟩ := hw.allocate definition.operation
        ⟨none, nullValue, false, definition.undoOperation, definition.captureUndo⟩ none nofun rfl
      exact ⟨hregistered _ _ hwired, fun c hc _ => hkept c hc⟩
  | newInstance cmd =>
    simp only [perform]
    split_ifs with hcmd
    · obtain ⟨hwired, hkept⟩ := createCloneImpl_spec hw hcmd
      exact ⟨hwired, fun c hc _ => hkept c hc⟩
    · exact hsame
  | storeDef cmd newCmdID =>
    simp only [perform]
    split_ifs with hcmd
    · obtain ⟨hwired, hkept⟩ := createCloneImpl_spec hw hcmd.1
      exact ⟨hregistered _ _ hwired, fun c hc _ => hkept c hc⟩
    · exact hsame
  | bindArg cmd args =>
    simp only [perform]
    split_ifs with hcmd
    · exact hsingle cmd _ hcmd (bindArg_spec hw hcmd args)
    · exact hsame
  | unbind cmd =>
    simp only [perform]
    split_ifs with hcmd
    · exact hsingle cmd _ hcmd (unbind_spec hw hcmd nullValue)
    · exact hsame
  | exec cmd =>
    simp only [perform]
    split_ifs with hcmd
    · obtain ⟨honly, hwired, -⟩ := exec_spec hw hcmd
      exact hsingle cmd _ hcmd ⟨honly, hwired⟩
    · exact hsame
  | undo cmd =>
    simp only [perform]
    split_ifs with hcmd
    · obtain ⟨honly, hwired, -⟩ := undo_spec hw hcmd
      exact hsingle cmd _ hcmd ⟨honly, hwired⟩
    · exact hsame

theorem wired_reachable (h : (machine nullValue).Reachable s) : s.Wired := by
  refine Machine.Invariant.reachable ⟨?_, ?_⟩ h
  · rintro s ⟨hcnt, -⟩
    exact wired_init hcnt
  · rintro s op s' hw rfl
    exact (perform_spec _ hw op).1

theorem run_foldl (ops : List (Operation Args MEM Session)) (s : Commands Args MEM Session) :
    (machine nullValue).Run s ops (ops.foldl (·.perform nullValue) s) := by
  induction ops generalizing s with
  | nil => exact .nil s
  | cons op ops ih => exact .cons rfl (ih _)

theorem exec_captured (hw : s.Wired) (hcmd : cmd < s.cnt) {args args' : Args} {session : Session}
    {mementoVal : MEM} (hargs : (s.closure cmd).arguments_ = some args)
    (hcapture : (s.closure cmd).capture_ args s.session = (args', session, some mementoVal)) :
    (s.exec cmd).captured cmd = some mementoVal := by
  have hexec : s.canExec cmd = true := by
    rw [canExec, hargs]
    rfl
  have hfunc : (s.impls cmd).undo_.captureMemento_ args s.session = (args', session, some mementoVal) := by
    rw [hw.tied cmd hcmd]
    exact hcapture
  have hargs' : (s.holders (s.impls cmd).pClo_).arguments_ = some args := hargs
  unfold exec invokeCapture
  simp only [invoke, hargs', hfunc, if_pos hexec]
  -- the operation does not concern what was captured
  unfold invokeOperation invoke
  split
  · exact update_self ..
  · exact update_self ..

/-- **Commands are isolated**: an operation leaves the arguments and the memento of all commands it is not
performed on unchanged; undo is invoked with the own arguments and with the memento from the most recent
capture of the same command, or when there was none yet, with the one taken over from its origin; and
the capture recorded is the result of the capturing function. -/
theorem isolated_clones (h : (machine nullValue).Reachable s) :
    (∀ op : Operation Args MEM Session, ∀ c < s.cnt, op.target ≠ some c →
      (s.perform nullValue op).closure c = s.closure c ∧
        (s.perform nullValue op).canExec c = s.canExec c ∧
          (s.perform nullValue op).canUndo c = s.canUndo c) ∧
    (∀ cmd < s.cnt, s.canUndo cmd = true → ∃ args mementoVal,
      (s.closure cmd).arguments_ = some args ∧
        (s.captured cmd).or (s.inherited cmd) = some mementoVal ∧
          (s.perform nullValue (.undo cmd)).undone = s.undone ++ [(cmd, args, mementoVal)]) ∧
    ∀ cmd < s.cnt, ∀ args args' session mementoVal, (s.closure cmd).arguments_ = some args →
      (s.closure cmd).capture_ args s.session = (args', session, some mementoVal) →
        (s.perform nullValue (.exec cmd)).captured cmd = some mementoVal := by
  have hw := wired_reachable h
  refine ⟨?_, ?_, ?_⟩
  · intro op c hc htarget
    have hsame := (perform_spec nullValue hw op).2 c hc htarget
    refine ⟨hsame, ?_, ?_⟩
    · rw [canExec, hsame, canExec]
    · rw [canUndo, hsame, canUndo]
  · intro cmd hcmd hcan
    obtain ⟨-, -, -, hundone⟩ := undo_spec hw hcmd
    simp only [perform, if_pos hcmd]
    exact hundone hcan
  · intro cmd hcmd args args' session mementoVal hargs hcapture
    simp only [perform, if_pos hcmd]
    exact exec_captured hw hcmd hargs hcapture

/-- A command which adds a number to the session, undone by restoring the value found before. -/
def addNumber : Definition Nat Nat Nat where
  operation number session := (number, session + number, some ⟨⟩)
  captureUndo number session := (number, session, some session)
  undoOperation mementoVal number _ := (number, mementoVal, some ⟨⟩)

/-- There are no commands. -/
def noCommands : Commands Nat Nat Nat where
  cnt := 0
  impls _ := ⟨addNumber.operation, ⟨addNumber.undoOperation, 0, addNumber.captureUndo, 0⟩, 0⟩
  allocated := 0
  holders _ := ⟨none, 0, false, addNumber.undoOperation, addNumber.captureUndo⟩
  session := 100
  registry _ := none
  captured _ := none
  inherited _ := none
  undone := []

/-- The clone of an executed command is undone. -/
def cloned : Commands Nat Nat Nat :=
  [Operation.define "add" addNumber, .bindArg 0 5, .exec 0, .newInstance 0].foldl (·.perform 0) noCommands

theorem cloned_reachable : (machine 0).Reachable cloned :=
  ⟨noCommands, _, ⟨rfl, rfl⟩, run_foldl _ noCommands⟩

/-- Executing the clone leaves the original as it is, and is undone with the own memento. -/
theorem isolated_clones_add : (cloned.perform 0 (.exec 1)).canUndo 0 = cloned.canUndo 0 ∧ ∃ args mementoVal,
    (cloned.closure 0).arguments_ = some args ∧ (cloned.captured 0).or (cloned.inherited 0) = some mementoVal ∧
    (cloned.perform 0 (.undo 0)).undone = cloned.undone ++ [(0, args, mementoVal)] := by
  obtain ⟨hothers, hundo, -⟩ := isolated_clones cloned_reachable
  exact ⟨(hothers (.exec 1) 0 (by decide) (by decide)).2.2, hundo 0 (by decide) rfl⟩

/-- **Undo without any capture**: the clone of an executed command was not executed itself, and yet its undo
function is invoked, with the memento of the original. -/
theorem undone_without_capture : (machine 0).Reachable cloned ∧ cloned.captured 1 = none ∧
    (cloned.perform 0 (.undo 1)).undone = [(1, 5, 100)] :=
  ⟨cloned_reachable, rfl, rfl⟩

end Commands

end Lumiera.Steam.Control.Undo
