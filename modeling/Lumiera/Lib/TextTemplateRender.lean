import Lumiera.Lib.TextTemplate

/-! # Instantiation renders the structure

The actions laid out for a block are interpreted step by step, with jumps, loops and the stack of data
contexts, and this renders the text given by recursion on the structure, leaving the contexts as they
were. Since each step is either a rendering or moves on to another action, the instantiation terminates
whenever there is such a sequence of steps up to the end. -/

namespace Lumiera.Lib.TextTemplate

open List

variable {SRC Elm : Type} [DataSource SRC Elm] {actions : List Action}

/-! ## Steps -/

/-- **The instantiation as a machine**: a step interprets one action; it is labelled with the text
rendered, which is empty when continuing at another action. -/
def machine (SRC : Type) {Elm : Type} [DataSource SRC Elm] (actions : List Action) :
    Machine (InstanceCore SRC Elm) Text where
  init core := ∃ src, core = ⟨src, 0, []⟩
  step core out core' := ∃ action, actions[core.actionIter_]? = some action ∧
    ((∃ core₁, action.instantiate core = some (.rendered out, core₁) ∧
        core' = { core₁ with actionIter_ := core₁.actionIter_ + 1 }) ∨
      ∃ core₁ nextCode, action.instantiate core = some (.reInstantiate nextCode, core₁) ∧
        core₁.relocate actions.length nextCode = some core' ∧ out = [])

variable {val : Text}

section Steps

variable {src : SRC} {i : Nat} {stk : List (List Elm × SRC)}

variable {ref : Nat}

theorem step_text {lead : Text} (hget : actions[i]? = some ⟨.TEXT, lead, ref⟩) :
    (machine SRC actions).step ⟨src, i, stk⟩ lead ⟨src, i + 1, stk⟩ :=
  ⟨_, hget, .inl ⟨_, rfl, rfl⟩⟩

variable {key : Text}

theorem step_key (hget : actions[i]? = some ⟨.KEY, key, ref⟩) :
    (machine SRC actions).step ⟨src, i, stk⟩ (getContent src key) ⟨src, i + 1, stk⟩ :=
  ⟨_, hget, .inl ⟨_, rfl, rfl⟩⟩

theorem step_jump (hget : actions[i]? = some ⟨.JUMP, val, ref⟩) (href : ref < actions.length) :
    (machine SRC actions).step ⟨src, i, stk⟩ [] ⟨src, ref, stk⟩ :=
  ⟨_, hget, .inr ⟨_, some ref, rfl, if_pos href, rfl⟩⟩

theorem step_cond_true (hget : actions[i]? = some ⟨.COND, key, ref⟩)
    (hcond : conditional src key = true) : (machine SRC actions).step ⟨src, i, stk⟩ [] ⟨src, i + 1, stk⟩ := by
  refine ⟨_, hget, .inr ⟨⟨src, i, stk⟩, none, ?_, rfl, rfl⟩⟩
  simp only [Action.instantiate, hcond, ite_true]

theorem step_cond_false (hget : actions[i]? = some ⟨.COND, key, ref⟩) (hcond : conditional src key = false)
    (href : ref < actions.length) : (machine SRC actions).step ⟨src, i, stk⟩ [] ⟨src, ref, stk⟩ := by
  refine ⟨_, hget, .inr ⟨⟨src, i, stk⟩, some ref, ?_, if_pos href, rfl⟩⟩
  simp only [Action.instantiate, hcond, Bool.false_eq_true, ite_false]

theorem step_iter_skip (hget : actions[i]? = some ⟨.ITER, key, ref⟩)
    (hnone : Block.elements src key = ([] : List Elm)) (href : ref < actions.length) :
    (machine SRC actions).step ⟨src, i, stk⟩ [] ⟨src, ref, stk⟩ := by
  refine ⟨_, hget, .inr ⟨⟨src, i, stk⟩, some ref, ?_, if_pos href, rfl⟩⟩
  have hopen : InstanceCore.openIteration ⟨src, i, stk⟩ key = some (false, ⟨src, i, stk⟩) := by
    rw [InstanceCore.openIteration]
    by_cases hcond : conditional src key
    · rw [Block.elements, if_pos hcond] at hnone
      rw [if_pos hcond, hnone]
    · rw [if_neg hcond]
  simp [Action.instantiate, hopen]

theorem step_iter_open {elm : Elm} {more : List Elm}
    (hget : actions[i]? = some ⟨.ITER, key, ref⟩)
    (hsome : Block.elements src key = elm :: more) :
    (machine SRC actions).step ⟨src, i, stk⟩ []
      ⟨DataSource.openContext src elm, i + 1, (elm :: more, src) :: stk⟩ := by
  refine ⟨_, hget, .inr ⟨⟨DataSource.openContext src elm, i, (elm :: more, src) :: stk⟩, none, ?_, rfl,
    rfl⟩⟩
  have hcond : conditional src key = true := by
    cases hcond : conditional src key with
    | true => rfl
    | false =>
      rw [Block.elements, if_neg (by simp [hcond])] at hsome
      cases hsome
  rw [Block.elements, if_pos hcond] at hsome
  simp [Action.instantiate, InstanceCore.openIteration, hcond, hsome, InstanceCore.focusNested]

theorem step_loop_further {inner : SRC} {elm next : Elm} {more : List Elm}
    (hget : actions[i]? = some ⟨.LOOP, val, ref⟩) (href : ref + 1 < actions.length) :
    (machine SRC actions).step ⟨inner, i, (elm :: next :: more, src) :: stk⟩ []
      ⟨DataSource.openContext src next, ref + 1, (next :: more, src) :: stk⟩ := by
  refine ⟨_, hget, .inr ⟨⟨DataSource.openContext src next, i, (next :: more, src) :: stk⟩,
    some (ref + 1), ?_, if_pos href, rfl⟩⟩
  simp [Action.instantiate, InstanceCore.loopFurther, InstanceCore.focusNested]

theorem step_loop_end (inner : SRC) (elm : Elm) (hget : actions[i]? = some ⟨.LOOP, val, ref⟩) :
    (machine SRC actions).step ⟨inner, i, ([elm], src) :: stk⟩ [] ⟨src, i + 1, stk⟩ := by
  refine ⟨_, hget, .inr ⟨⟨src, i, stk⟩, none, ?_, rfl, rfl⟩⟩
  simp [Action.instantiate, InstanceCore.loopFurther]

end Steps

variable {core core' : InstanceCore SRC Elm}

theorem Action.instantiate_actionIter (action : Action) {value : Text}
    (h : action.instantiate core = some (.rendered value, core')) : core'.actionIter_ = core.actionIter_ := by
  unfold Action.instantiate at h
  split at h
  · obtain ⟨-, rfl⟩ := Prod.mk.inj (Option.some.inj h)
    rfl
  · obtain ⟨-, rfl⟩ := Prod.mk.inj (Option.some.inj h)
    rfl
  all_goals simp at h

/-! ## Runs -/

/-- A run which renders this text. -/
def Renders (actions : List Action) (core : InstanceCore SRC Elm) (text : Text)
    (core' : InstanceCore SRC Elm) : Prop :=
  ∃ outs, (machine SRC actions).Run core outs core' ∧ outs.flatten = text

theorem Renders.refl (core : InstanceCore SRC Elm) : Renders actions core [] core :=
  ⟨[], .nil core, rfl⟩

variable {core₁ : InstanceCore SRC Elm}

theorem Renders.step {out text : Text} (hstep : (machine SRC actions).step core out core₁)
    (h : Renders actions core₁ text core') : Renders actions core (out ++ text) core' := by
  obtain ⟨outs, hrun, rfl⟩ := h
  exact ⟨out :: outs, .cons hstep hrun, rfl⟩

theorem Renders.move {text : Text} (hstep : (machine SRC actions).step core [] core₁)
    (h : Renders actions core₁ text core') : Renders actions core text core' :=
  h.step hstep

theorem Renders.trans {text text' : Text} (h : Renders actions core text core₁)
    (h' : Renders actions core₁ text' core') : Renders actions core (text ++ text') core' := by
  obtain ⟨outs, hrun, rfl⟩ := h
  obtain ⟨outs', hrun', rfl⟩ := h'
  exact ⟨outs ++ outs', hrun.append hrun', flatten_append⟩

/-! ## Code in place -/

/-- This code is found at an index. -/
def CodeAt (actions : List Action) (i : Nat) (code : List Action) : Prop :=
  ∃ before after, actions = before ++ code ++ after ∧ before.length = i

variable {code : List Action} {i : Nat} {action : Action}

theorem CodeAt.head (h : CodeAt actions i (action :: code)) : actions[i]? = some action := by
  obtain ⟨before, after, rfl, rfl⟩ := h
  simp

theorem CodeAt.tail (h : CodeAt actions i (action :: code)) : CodeAt actions (i + 1) code := by
  obtain ⟨before, after, rfl, rfl⟩ := h
  exact ⟨before ++ [action], after, by simp, by simp⟩

theorem CodeAt.append_left {more : List Action} (h : CodeAt actions i (code ++ more)) : CodeAt actions i code := by
  obtain ⟨before, after, rfl, rfl⟩ := h
  exact ⟨before, more ++ after, by simp, rfl⟩

theorem CodeAt.append_right {more : List Action} (h : CodeAt actions i (code ++ more)) :
    CodeAt actions (i + code.length) more := by
  obtain ⟨before, after, rfl, rfl⟩ := h
  exact ⟨before ++ code, after, by simp, by simp⟩

theorem CodeAt.lt (h : CodeAt actions i code) (hpos : 0 < code.length) : i < actions.length := by
  obtain ⟨before, after, rfl, rfl⟩ := h
  simp only [length_append]
  omega

/-! ## Simulation -/

/-- **The loop**, given that the body renders properly for each context: from the start of the body for
the first of these elements, up to the action after the loop. -/
theorem renders_loop {start stop : Nat} {content : Block} (src : SRC)
    (stk : List (List Elm × SRC)) (hloop : actions[stop]? = some ⟨.LOOP, val, start⟩)
    (hstart : start + 1 < actions.length)
    (hbody : ∀ (src : SRC) (stk : List (List Elm × SRC)),
      Renders actions ⟨src, start + 1, stk⟩ (content.render src) ⟨src, stop, stk⟩)
    (elm : Elm) (more : List Elm) :
    Renders actions ⟨DataSource.openContext src elm, start + 1, (elm :: more, src) :: stk⟩
      ((elm :: more).flatMap fun elm => content.render (DataSource.openContext src elm))
      ⟨src, stop + 1, stk⟩ := by
  induction more generalizing elm with
  | nil =>
    have hend := (Renders.refl ⟨src, stop + 1, stk⟩).move
      (step_loop_end (DataSource.openContext src elm) elm hloop)
    have h := (hbody (DataSource.openContext src elm) (([elm], src) :: stk)).trans hend
    simpa using h
  | cons next more ih =>
    exact (hbody _ _).trans ((ih next).move (step_loop_further hloop hstart))

/-- **The actions laid out for a block render the block**, in any context; they end behind the last
action, with the contexts as they were. -/
theorem renders_layout {block : Block} (hlayout : Block.Layout i block code)
    (hcode : CodeAt actions i code) (src : SRC) (stk : List (List Elm × SRC)) :
    Renders actions ⟨src, i, stk⟩ (block.render src) ⟨src, i + code.length, stk⟩ := by
  induction hlayout generalizing src stk with
  | done lead =>
    rw [Block.render]
    have h : Renders actions ⟨src, _, stk⟩ (lead ++ []) _ :=
      (Renders.refl _).step (step_text hcode.head)
    simpa using h
  | @escape i rest out lead hrest ih =>
    have h := (ih hcode.tail src stk).step (step_text hcode.head)
    rwa [Nat.add_right_comm] at h
  | @placeholder i rest out lead key hrest ih =>
    have hlater := ih hcode.tail.tail src stk
    have hend : i + 2 + out.length = i + out.length + 1 + 1 := by omega
    rw [hend] at hlater
    rw [Block.render, append_assoc]
    exact (hlater.step (step_key hcode.tail.head)).step (step_text hcode.head)
  | @bracket i m content rest inner out clause lead key val hm hcontent hrest ihcontent ihrest =>
    have hinner := hcode.tail.tail.append_left
    have hstop := hcode.tail.tail.append_right
    have hout : CodeAt actions m out := by
      rw [hm]
      exact hstop.append_right
    have hlater := ihrest hout src stk
    have hend : m + out.length
        = i + (inner ++ (Block.endCode clause val (i + 1) ++ out)).length + 1 + 1 := by
      simp only [length_append]
      omega
    rw [length_cons, length_cons, ← Nat.add_assoc, ← Nat.add_assoc, ← hend]
    cases clause with
    | IF =>
      rw [Block.render, append_assoc]
      apply Renders.step (step_text hcode.head)
      cases hcond : conditional src key with
      | true =>
        have hbody := ihcontent hinner src stk
        rw [← show m = i + 2 + inner.length from hm] at hbody
        exact (hbody.trans hlater).move (step_cond_true hcode.tail.head hcond)
      | false =>
        exact hlater.move (step_cond_false hcode.tail.head hcond (hout.lt hrest.length_pos))
    | FOR =>
      rw [Block.render, append_assoc]
      apply Renders.step (step_text hcode.head)
      cases helms : Block.elements src key with
      | nil =>
        exact hlater.move (step_iter_skip hcode.tail.head helms (hout.lt hrest.length_pos))
      | cons elm more =>
        have hbody := renders_loop src stk hstop.head (hinner.lt hcontent.length_pos)
          (fun src stk => ihcontent hinner src stk) elm more
        rw [← show m = i + 2 + inner.length + 1 from hm] at hbody
        exact (hbody.trans hlater).move (step_iter_open hcode.tail.head helms)
  | @bracketElse i j m content alternative rest inner other out clause lead key val val' hj hm hcontent
      halt hrest ihcontent ihalt ihrest =>
      have hinner := hcode.tail.tail.append_left
      have hstop := hcode.tail.tail.append_right
      have hjump := hstop.append_right
      rw [← hj] at hjump
      have hother := hjump.tail.append_left
      have hout : CodeAt actions m out := by
        rw [hm]
        exact hjump.tail.append_right
      have hlater := ihrest hout src stk
      have hskip := hlater.move (step_jump hjump.head (hout.lt hrest.length_pos))
      have helse := ihalt hother src stk
      rw [← hm] at helse
      have hend : m + out.length = i + (inner ++ (Block.endCode clause val (i + 1) ++
          ⟨.JUMP, val', m⟩ :: (other ++ out))).length + 1 + 1 := by
        simp only [length_append, length_cons]
        omega
      rw [length_cons, length_cons, ← Nat.add_assoc, ← Nat.add_assoc, ← hend]
      cases clause with
      | IF =>
        rw [Block.render, append_assoc]
        apply Renders.step (step_text hcode.head)
        cases hcond : conditional src key with
        | true =>
          have hbody := ihcontent hinner src stk
          rw [← show j = i + 2 + inner.length from hj] at hbody
          exact (hbody.trans hskip).move (step_cond_true hcode.tail.head hcond)
        | false =>
          exact (helse.trans hlater).move
            (step_cond_false hcode.tail.head hcond (hother.lt halt.length_pos))
      | FOR =>
        rw [Block.render, append_assoc]
        apply Renders.step (step_text hcode.head)
        cases helms : Block.elements src key with
        | nil =>
          exact (helse.trans hlater).move
            (step_iter_skip hcode.tail.head helms (hother.lt halt.length_pos))
        | cons elm more =>
          have hbody := renders_loop src stk hstop.head (hinner.lt hcontent.length_pos)
            (fun src stk => ihcontent hinner src stk) elm more
          rw [← show j = i + 2 + inner.length + 1 from hj] at hbody
          exact (hbody.trans hskip).move (step_iter_open hcode.tail.head helms)

/-! ## Termination -/

theorem instantiateNext_mono {fuel : Nat} {value : Text}
    (h : instantiateNext actions fuel core = some (value, core')) :
    instantiateNext actions (fuel + 1) core = some (value, core') := by
  induction fuel generalizing core with
  | zero => cases h
  | succ fuel ih =>
    rw [instantiateNext] at h ⊢
    cases hget : actions[core.actionIter_]? with
    | none => rwa [hget] at h
    | some action =>
      rw [hget] at h
      cases hinstantiate : action.instantiate core with
      | none => simp [hinstantiate] at h
      | some result =>
        obtain ⟨outcome, core₁⟩ := result
        simp only [hinstantiate] at h ⊢
        cases outcome with
        | rendered value => exact h
        | reInstantiate nextCode =>
          obtain ⟨core₂, hrelocate, hrest⟩ := Option.bind_eq_some_iff.mp h
          exact Option.bind_eq_some_iff.mpr ⟨core₂, hrelocate, ih hrest⟩

theorem submit_mono {fuel : Nat} {renderings : List Text} (h : submit actions fuel core = some (renderings, core')) :
    submit actions (fuel + 1) core = some (renderings, core') := by
  induction fuel generalizing core renderings with
  | zero => cases h
  | succ fuel ih =>
    rw [submit] at h ⊢
    cases hnext : instantiateNext actions fuel core with
    | none => simp [hnext] at h
    | some result =>
      rw [hnext] at h
      rw [instantiateNext_mono hnext]
      simp only at h ⊢
      split at h
      · next hlt =>
          obtain ⟨⟨rest, core₂⟩, hrest, heq⟩ := Option.map_eq_some_iff.mp h
          obtain ⟨rfl, rfl⟩ := Prod.mk.inj heq
          rw [if_pos hlt, ih hrest]
          rfl
      · next hend => rwa [if_neg hend]

/-- Continuing at another action yields the same renderings. -/
theorem submit_move {fuel : Nat} {core₂ : InstanceCore SRC Elm} {nextCode : Option Nat}
    {renderings : List Text} (hget : actions[core.actionIter_]? = some action)
    (hmove : action.instantiate core = some (.reInstantiate nextCode, core₁))
    (hrelocate : core₁.relocate actions.length nextCode = some core₂)
    (h : submit actions fuel core₂ = some (renderings, core')) :
    submit actions (fuel + 1) core = some (renderings, core') := by
  cases fuel with
  | zero => cases h
  | succ fuel =>
    have hnext : instantiateNext actions (fuel + 1) core = instantiateNext actions fuel core₂ := by
      rw [instantiateNext, hget]
      simp only [hmove, hrelocate, Option.bind_some]
    rw [submit] at h ⊢
    rw [hnext]
    cases hvalue : instantiateNext actions fuel core₂ with
    | none => simp [hvalue] at h
    | some result =>
      rw [hvalue] at h
      simp only at h ⊢
      split at h
      · next hlt =>
          obtain ⟨⟨rest, core₄⟩, hrest, heq⟩ := Option.map_eq_some_iff.mp h
          rw [if_pos hlt, submit_mono hrest]
          exact congrArg some heq
      · next hend => rwa [if_neg hend]

/-- **A run up to the end is an instantiation which terminates**, and the renderings joined are the text
of this run. -/
theorem submit_of_run {outs : List Text}
    (hrun : (machine SRC actions).Run core outs core') (hend : actions.length ≤ core'.actionIter_) :
    ∃ n, ∀ fuel ≥ n, ∃ renderings, submit actions fuel core = some (renderings, core') ∧
      renderings.flatten = outs.flatten := by
  induction hrun with
  | nil core =>
    refine ⟨2, fun fuel hfuel => ⟨[], ?_, rfl⟩⟩
    obtain ⟨k, rfl⟩ : ∃ k, fuel = k + 2 := ⟨fuel - 2, by omega⟩
    have hnone : actions[core.actionIter_]? = none := getElem?_eq_none_iff.mpr hend
    rw [submit, instantiateNext, hnone]
    simp only [if_neg (Nat.not_lt.mpr hend)]
  | @cons core core₁ core' out outs hstep _ ih =>
    obtain ⟨n, hn⟩ := ih hend
    obtain ⟨action, hget, hcases⟩ := hstep
    have hlt : core.actionIter_ < actions.length := (List.getElem?_eq_some_iff.mp hget).1
    rcases hcases with ⟨core₀, hrendered, rfl⟩ | ⟨core₀, nextCode, hmove, hrelocate, rfl⟩
    · have hsame : core₀.actionIter_ = core.actionIter_ := action.instantiate_actionIter hrendered
      refine ⟨n + 2, fun fuel hfuel => ?_⟩
      obtain ⟨k, rfl⟩ : ∃ k, fuel = k + 2 := ⟨fuel - 2, by omega⟩
      obtain ⟨renderings, hsubmit, hflat⟩ := hn (k + 1) (by omega)
      refine ⟨out :: renderings, ?_, by rw [flatten_cons, flatten_cons, hflat]⟩
      have hnext : instantiateNext actions (k + 1) core = some (out, core₀) := by
        rw [instantiateNext, hget]
        simp only [hrendered]
      rw [submit, hnext]
      simp only [hsame, if_pos hlt]
      rw [hsame] at hsubmit
      rw [hsubmit]
      rfl
    · refine ⟨n + 1, fun fuel hfuel => ?_⟩
      obtain ⟨k, rfl⟩ : ∃ k, fuel = k + 1 := ⟨fuel - 1, by omega⟩
      obtain ⟨renderings, hsubmit, hflat⟩ := hn k (by omega)
      refine ⟨renderings, submit_move hget hmove hrelocate hsubmit, ?_⟩
      rw [hflat, flatten_cons, nil_append]

/-- **The template rendered**: instantiation terminates with the text given by recursion on the
structure, and all data contexts are closed again. -/
theorem render_of_layout {block : Block} (hlayout : Block.Layout 0 block actions) (src : SRC) : ∃ n, ∀ fuel ≥ n,
    render actions fuel src = some (block.render src, ⟨src, actions.length, []⟩) := by
  have hcode : CodeAt actions 0 actions := ⟨[], [], by simp, rfl⟩
  obtain ⟨outs, hrun, hflat⟩ := renders_layout hlayout hcode src []
  rw [Nat.zero_add] at hrun
  obtain ⟨n, hn⟩ := submit_of_run hrun (Nat.le_refl _)
  refine ⟨n, fun fuel hfuel => ?_⟩
  obtain ⟨renderings, hsubmit, hsame⟩ := hn fuel hfuel
  rw [render, hsubmit, Option.map_some]
  simp only [hsame, hflat]

end Lumiera.Lib.TextTemplate
