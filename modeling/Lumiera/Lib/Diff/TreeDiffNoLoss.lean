import Mathlib.Data.List.Perm.Basic
import Lumiera.Lib.Diff.TreeDiffTrace

/-! # No silent loss in a tree diff

When a message was applied without an error and has as many `emu` as `mut`, then its scopes were
properly nested (`balanced_of_steps`), each was complete when it was left, and each element a
collection held when its scope was opened is in the resulting collection, unless it was the next
element when a `del` matching it or a `skip` came along (`no_silent_loss`). -/

namespace Lumiera.Lib.Diff

open List

variable {β Elm : Type}

/-! ## Nesting -/

/-- Whether a verb opens a nested scope. -/
def TreeDiffStep.isMut : TreeDiffStep → Bool
  | .mut _ => true
  | _ => false

/-- Whether a verb leaves a nested scope. -/
def TreeDiffStep.isEmu : TreeDiffStep → Bool
  | .emu _ => true
  | _ => false

/-- Balanced parts separated by `d` further `emu`. -/
def Closes : Nat → List TreeDiffStep → Prop
  | 0, diff => Balanced diff
  | d + 1, diff => ∃ body n' rest, diff = body ++ .emu n' :: rest ∧ Balanced body ∧ Closes d rest

theorem Closes.prepend {d : Nat} {diff front : List TreeDiffStep} (h : Closes d diff)
    (hfront : Balanced front) : Closes d (front ++ diff) := by
  cases d with
  | zero => exact hfront.append h
  | succ d =>
    obtain ⟨body, n', rest, rfl, hbody, hrest⟩ := h
    refine ⟨front ++ body, n', rest, ?_, hfront.append hbody, hrest⟩
    rw [append_assoc]

namespace TreeDiffScopes

variable {B : β → CollectionBinding β Elm} {H : RefHash}

variable {s s' : TreeDiffScopes β Elm}

theorem depth_step {v : TreeDiffStep} (h : step B H s v = .ok s') :
    s'.outer.length + v.isEmu.toNat = s.outer.length + v.isMut.toNat := by
  cases v with
  | «mut» n =>
    obtain ⟨locus, -, houter⟩ := step_mut h
    rw [houter]
    rfl
  | emu n =>
    obtain ⟨-, par, locus, houter, -⟩ := step_emu h
    rw [houter]
    rfl
  | ins n => rw [(step_inScope rfl h).1]; rfl
  | del n => rw [(step_inScope rfl h).1]; rfl
  | pick n => rw [(step_inScope rfl h).1]; rfl
  | find n => rw [(step_inScope rfl h).1]; rfl
  | skip n => rw [(step_inScope rfl h).1]; rfl
  | after n => rw [(step_inScope rfl h).1]; rfl
  | set n => rw [(step_inScope rfl h).1]; rfl

variable {diff : List TreeDiffStep}

theorem depth_steps (h : steps B H s diff = .ok s') :
    s'.outer.length + diff.countP TreeDiffStep.isEmu = s.outer.length + diff.countP TreeDiffStep.isMut := by
  induction diff generalizing s with
  | nil => cases h; rfl
  | cons v diff ih =>
    obtain ⟨s₁, hfirst, hrest⟩ := of_steps_cons h
    have h₁ := depth_step hfirst
    have h₂ := ih hrest
    have hcount : ∀ p : TreeDiffStep → Bool,
        (v :: diff).countP p = diff.countP p + (p v).toNat := by
      intro p
      rw [countP_cons]
      cases p v <;> rfl
    rw [hcount, hcount]
    omega

theorem closes_of_steps (h : steps B H s diff = .ok s') (hroot : s'.outer = []) : Closes s.outer.length diff := by
  induction diff generalizing s with
  | nil =>
    cases h
    rw [hroot]
    exact Balanced.nil
  | cons v diff ih =>
    obtain ⟨s₁, hfirst, hrest⟩ := of_steps_cons h
    have hdiff := ih hrest
    by_cases hv : v.inScope = true
    · rw [(step_inScope hv hfirst).1] at hdiff
      exact hdiff.prepend (.verb hv .nil)
    · cases v with
      | «mut» n =>
        obtain ⟨locus, -, houter⟩ := step_mut hfirst
        rw [houter] at hdiff
        obtain ⟨body, n', rest, rfl, hbody, hclosed⟩ := hdiff
        have hshift : .mut n :: (body ++ .emu n' :: rest)
            = (.mut n :: (body ++ [.emu n'])) ++ rest := by
          rw [cons_append, append_assoc]; rfl
        rw [hshift]
        exact Closes.prepend hclosed hbody.bracket
      | emu n =>
        obtain ⟨-, par, locus, houter, -⟩ := step_emu hfirst
        rw [houter]
        exact ⟨[], n, diff, rfl, .nil, hdiff⟩
      | _ => exact absurd rfl hv

/-- **Proper nesting.** A message applied from the root scope which has as many `emu` as `mut` is
balanced, for each `emu` has to find a scope to leave. -/
theorem balanced_of_steps (h : steps B H s diff = .ok s') (hroot : s.outer = [])
    (hcount : diff.countP TreeDiffStep.isMut = diff.countP TreeDiffStep.isEmu) : Balanced diff ∧ s'.outer = [] := by
  have hdepth := depth_steps h
  rw [hroot, hcount] at hdepth
  have houter : s'.outer = [] := eq_nil_of_length_eq_zero (by simpa using hdepth)
  have hclosed := closes_of_steps h houter
  rw [hroot] at hclosed
  exact ⟨hclosed, houter⟩

end TreeDiffScopes

/-! ## Where the original elements are -/

/-- A container which takes up every element handed to it, as a vector does. -/
def CollectionBinding.TakesUp (B : CollectionBinding β Elm) : Prop :=
  ∀ xs e, ∃ k, B.trait.insertPos xs e = some k ∧ k ≤ xs.length

namespace Content

/-- The original element `i` is in the resulting collection. -/
def Holds (c : Content (Traced Elm)) (i : Nat) : Prop := ∃ e ∈ c.collection, e.src = .original i

/-- The original element `i` is waiting in the slot `j` of the old content. -/
def PendingAt (c : Content (Traced Elm)) (j i : Nat) : Prop :=
  c.pos ≤ j ∧ ∃ e, c.contentBuffer[j]? = some e ∧ e.src = .original i

/-- The original element `i` comes next and is dropped: by a `del` which matches it, or by a
`skip`. -/
def Drops (B : CollectionBinding β Elm) (c : Content (Traced Elm)) (i : Nat) :
    TreeDiffStep → Prop
  | .del n => ∃ e, c.current = some e ∧ e.src = .original i ∧ B.matchElement n e.elm = true
  | .skip _ => ∃ e, c.current = some e ∧ e.src = .original i
  | _ => False

variable {B : CollectionBinding β Elm} {H : RefHash}

theorem inject_perm (hB : B.TakesUp) (c : Content (Traced Elm)) (e : Traced Elm) :
    (c.inject B.traced.trait e).collection.Perm (e :: c.collection) := by
  obtain ⟨k, hk, hle⟩ := hB (c.collection.map Traced.elm) e.elm
  have hpos : B.traced.trait.insertPos c.collection e = some k := hk
  unfold inject
  rw [hpos]
  rw [length_map] at hle
  exact perm_insertIdx e c.collection hle

variable {c : Content (Traced Elm)} {i : Nat} {e : Traced Elm}

theorem Holds.moveIn (hB : B.TakesUp) (j : Nat) (h : c.Holds i ∨ e.src = .original i) :
    (c.moveIn B.traced.trait B.traced.movedFrom j e).Holds i := by
  have hperm := inject_perm hB c e
  rcases h with ⟨x, hx, hsrc⟩ | hsrc
  · exact ⟨x, hperm.mem_iff.mpr (mem_cons_of_mem _ hx), hsrc⟩
  · exact ⟨e, hperm.mem_iff.mpr mem_cons_self, hsrc⟩

variable {j l : Nat}

theorem PendingAt.moveIn_ne (h : c.PendingAt j i) (hne : l ≠ j) :
    (c.moveIn B.traced.trait B.traced.movedFrom l e).PendingAt j i := by
  obtain ⟨hpos, x, hx, hsrc⟩ := h
  refine ⟨hpos, x, ?_, hsrc⟩
  show (c.contentBuffer.set l _)[j]? = some x
  rw [getElem?_set_ne hne, hx]

theorem PendingAt.moveIn (hB : B.TakesUp) (h : c.PendingAt j i) (hl : c.contentBuffer[l]? = some e) :
    (c.moveIn B.traced.trait B.traced.movedFrom l e).Holds i ∨
    (l ≠ j ∧ (c.moveIn B.traced.trait B.traced.movedFrom l e).PendingAt j i) := by
  by_cases hlj : l = j
  · left
    obtain ⟨-, x, hx, hsrc⟩ := h
    rw [← hlj, hl] at hx
    exact Holds.moveIn hB l (.inr (Option.some.inj hx ▸ hsrc))
  · exact .inr ⟨hlj, h.moveIn_ne hlj⟩

theorem PendingAt.advance (h : c.PendingAt j i) (hne : c.pos ≠ j) : c.advance.PendingAt j i := by
  obtain ⟨hpos, hslot⟩ := h
  exact ⟨by show c.pos + 1 ≤ j; omega, hslot⟩

theorem PendingAt.accept (hB : B.TakesUp) (h : c.PendingAt j i) (hcurrent : c.current = some e) :
    (c.accept B.traced e).Holds i ∨ (c.accept B.traced e).PendingAt j i := by
  rcases h.moveIn hB hcurrent with hheld | ⟨hne, hpending⟩
  · exact .inl hheld
  · exact .inr (hpending.advance hne)

variable {c' : Content (Traced Elm)}

/-- Accepting in a loop loses nothing. -/
theorem AcceptRun.keeps (hB : B.TakesUp) {stop : Traced Elm → Bool} (h : AcceptRun B.traced stop c c') :
    (c.Holds i → c'.Holds i) ∧ ∀ j, c.PendingAt j i → c'.Holds i ∨ c'.PendingAt j i := by
  induction h with
  | done c => exact ⟨id, fun j hj => .inr hj⟩
  | @next c c' e hcurrent _ _ ih =>
    refine ⟨fun hheld => ih.1 (Holds.moveIn hB c.pos (.inl hheld)), ?_⟩
    intro j hj
    rcases hj.accept hB hcurrent with hheld | hpending
    · exact .inl (ih.1 hheld)
    · exact ih.2 j hpending

theorem Holds.of_sources (h : c.Holds i) (hsources : c'.collection.map Traced.src = c.collection.map Traced.src) :
    c'.Holds i := by
  obtain ⟨e, he, hsrc⟩ := h
  have hmem : Source.original i ∈ c'.collection.map Traced.src := by
    rw [hsources]
    exact mem_map.mpr ⟨e, he, hsrc⟩
  obtain ⟨e', he', hsrc'⟩ := mem_map.mp hmem
  exact ⟨e', he', hsrc'⟩

theorem sources_set {xs : List (Traced Elm)} {e' : Traced Elm} (hi : xs[i]? = some e) (hsrc : e'.src = e.src) :
    (xs.set i e').map Traced.src = xs.map Traced.src := by
  rw [map_set, hsrc]
  apply ext_getElem?
  intro l
  by_cases hl : i = l
  · rw [← hl, getElem?_set_self', getElem?_map, hi]
    rfl
  · rw [getElem?_set_ne hl]

theorem sources_writeBack (xs : List (Traced Elm)) (i : Nat) (sub : TreeMutator β (Traced Elm)) :
    (xs.modify i fun e => B.traced.writeBack e sub).map Traced.src = xs.map Traced.src := by
  apply ext_getElem?
  intro l
  rw [getElem?_map, getElem?_map, getElem?_modify]
  cases xs[l]? with
  | none => rfl
  | some e =>
    show some (if i = l then B.traced.writeBack e sub else e).src = some e.src
    rw [apply_ite Traced.src]
    exact congrArg some (ite_self e.src)

theorem assign_src {e' : Traced Elm} {n : GenNode} (h : B.traced.assign e n = .ok (some e')) : e'.src = e.src := by
  have hresult : mapResult (Traced.mk e.src) (B.assign e.elm n) = .ok (some e') := h
  cases hassign : B.assign e.elm n with
  | error err => rw [hassign] at hresult; cases hresult
  | ok r =>
    rw [hassign] at hresult
    cases r with
    | none => cases hresult
    | some x => cases hresult; rfl

/-- **What one verb does to the original elements**: those in the collection stay there; one
waiting is accepted, keeps waiting, or is dropped by a `del` or `skip`. -/
theorem effect_keeps (hB : B.TakesUp) {v : TreeDiffStep} (h : c.Effect B.traced H c' v) :
    (c.Holds i → c'.Holds i) ∧ ∀ j, c.PendingAt j i → c'.Holds i ∨ c'.PendingAt j i ∨ c.Drops B i v := by
  -- the element waiting in the slot at the current position
  have hhead : ∀ {j e}, c.PendingAt j i → c.current = some e → c.pos = j →
      e.src = .original i := by
    intro j e hj hcurrent hpos
    obtain ⟨-, x, hx, hsrc⟩ := hj
    rw [← hpos] at hx
    have hex : some e = some x := hcurrent.symm.trans hx
    exact (Option.some.inj hex) ▸ hsrc
  cases v with
  | ins n =>
    obtain ⟨e, -, rfl⟩ := h
    have hperm := inject_perm hB c e
    refine ⟨?_, fun j hj => .inr (.inl hj)⟩
    rintro ⟨x, hx, hsrc⟩
    exact ⟨x, hperm.mem_iff.mpr (mem_cons_of_mem _ hx), hsrc⟩
  | del n =>
    obtain ⟨e, hcurrent, hmatch, rfl⟩ := h
    refine ⟨id, ?_⟩
    intro j hj
    by_cases hpos : c.pos = j
    · exact .inr (.inr ⟨e, hcurrent, hhead hj hcurrent hpos, hmatch⟩)
    · exact .inr (.inl (hj.advance hpos))
  | pick n =>
    obtain ⟨e, hcurrent, -, rfl⟩ := h
    refine ⟨fun hheld => Holds.moveIn hB c.pos (.inl hheld), ?_⟩
    intro j hj
    rcases hj.accept hB hcurrent with hheld | hpending
    · exact .inl hheld
    · exact .inr (.inl hpending)
  | find n =>
    obtain ⟨l, e, -, hl, -, rfl⟩ := h
    refine ⟨fun hheld => Holds.moveIn hB l (.inl hheld), ?_⟩
    intro j hj
    rcases hj.moveIn hB hl with hheld | ⟨-, hpending⟩
    · exact .inl hheld
    · exact .inr (.inl hpending)
  | skip n =>
    obtain ⟨e, hcurrent, rfl⟩ := h
    refine ⟨id, ?_⟩
    intro j hj
    by_cases hpos : c.pos = j
    · exact .inr (.inr ⟨e, hcurrent, hhead hj hcurrent hpos⟩)
    · exact .inr (.inl (hj.advance hpos))
  | after n =>
    rcases h with ⟨-, hrun⟩ | ⟨c₁, e, hrun, hcurrent, -, rfl⟩
    · have hkeeps := hrun.keeps hB (i := i)
      refine ⟨hkeeps.1, ?_⟩
      intro j hj
      rcases hkeeps.2 j hj with hheld | hpending
      · exact .inl hheld
      · exact .inr (.inl hpending)
    · have hkeeps := hrun.keeps hB (i := i)
      refine ⟨fun hheld => Holds.moveIn hB c₁.pos (.inl (hkeeps.1 hheld)), ?_⟩
      intro j hj
      rcases hkeeps.2 j hj with hheld | hpending
      · exact .inl (Holds.moveIn hB c₁.pos (.inl hheld))
      · rcases hpending.accept hB hcurrent with hheld | hpending'
        · exact .inl hheld
        · exact .inr (.inl hpending')
  | set n =>
    obtain ⟨l, e, e', hl, hassign, rfl⟩ := h
    refine ⟨?_, fun j hj => .inr (.inl hj)⟩
    intro hheld
    exact hheld.of_sources (sources_set hl (assign_src hassign))
  | «mut» n => cases h
  | emu n => cases h

theorem altered_keeps (h : TreeMutator.Altered B.traced c c') :
    (c.Holds i → c'.Holds i) ∧ ∀ j, c.PendingAt j i → c'.PendingAt j i := by
  rcases h with rfl | ⟨l, sub, rfl⟩
  · exact ⟨id, fun _ hj => hj⟩
  · exact ⟨fun hheld => hheld.of_sources (sources_writeBack _ _ _), fun _ hj => hj⟩

theorem not_pendingAt (h : c.current = none) (j i : Nat) : ¬ c.PendingAt j i := by
  rintro ⟨hpos, e, he, -⟩
  have hlen : c.contentBuffer.length ≤ c.pos := getElem?_eq_none_iff.mp h
  have hlt : j < c.contentBuffer.length := (List.getElem?_eq_some_iff.mp he).1
  omega

end Content

theorem TreeMutator.current_of_completeScope {m : TreeMutator β Elm} (h : m.completeScope = true) {k : Nat} {b : β}
    {c : Content Elm} (hk : m.layers[k]? = some (b, c)) : c.current = none := by
  induction m generalizing k with
  | base => cases hk
  | childCollection b' c' par ih =>
    obtain ⟨hpar, hhere⟩ := Bool.and_eq_true_iff.mp h
    cases k with
    | zero => cases hk; exact Option.isNone_iff_eq_none.mp hhere
    | succ k => exact ih hpar hk
  | objectTypeHandler t par ih => exact ih h hk

/-! ## The course of a whole scope -/

/-- **A scope settled by the verbs `body`**, which lead from the state `s` at its opening to `s'`:
it is complete, and each original element then in one of its collections, or waiting to be
processed, is in the resulting collection, unless one of the verbs dropped it. -/
def ScopeSettled (B : β → CollectionBinding β Elm) (H : RefHash)
    (s : TreeDiffScopes β (Traced Elm)) (body : List TreeDiffStep)
    (s' : TreeDiffScopes β (Traced Elm)) : Prop :=
  TreeDiffScopes.steps (fun b => (B b).traced) H s body = .ok s' ∧
  s'.outer = s.outer ∧ s'.current.completeScope = true ∧
  ∀ (k : Nat) (b : β) (c : Content (Traced Elm)), s.current.layers[k]? = some (b, c) →
    ∃ c' : Content (Traced Elm), s'.current.layers[k]? = some (b, c') ∧
      ∀ i, (c.Holds i ∨ ∃ j, c.PendingAt j i) →
        c'.Holds i ∨
        ∃ (pre : List TreeDiffStep) (v : TreeDiffStep) (post : List TreeDiffStep)
            (s₁ : TreeDiffScopes β (Traced Elm))
            (c₁ : Content (Traced Elm)), body = pre ++ v :: post ∧ Balanced pre ∧
          TreeDiffScopes.steps (fun b => (B b).traced) H s pre = .ok s₁ ∧
          s₁.current.layers[k]? = some (b, c₁) ∧ c₁.Drops (B b) i v

/-- **Verbs which leave a scope complete have settled it.** The induction follows the course of
one layer: an original element is in the collection, still waiting, or dropped by one of the verbs
so far. -/
theorem scopeSettled_of_complete {B : β → CollectionBinding β Elm} {H : RefHash}
    (hB : ∀ b, (B b).TakesUp) {s s' : TreeDiffScopes β (Traced Elm)} {body : List TreeDiffStep}
    (hbal : Balanced body)
    (hsteps : TreeDiffScopes.steps (fun b => (B b).traced) H s body = .ok s')
    (hcomplete : s'.current.completeScope = true) : ScopeSettled B H s body s' := by
  refine ⟨hsteps, TreeDiffScopes.outer_of_balanced hbal hsteps, hcomplete, ?_⟩
  intro k b c hk
  let dropped (pre : List TreeDiffStep) (i : Nat) : Prop :=
    ∃ (front : List TreeDiffStep) (v : TreeDiffStep) (post : List TreeDiffStep)
      (s₁ : TreeDiffScopes β (Traced Elm)) (c₁ : Content (Traced Elm)), pre = front ++ v :: post ∧
      Balanced front ∧
      TreeDiffScopes.steps (fun b => (B b).traced) H s front = .ok s₁ ∧
      s₁.current.layers[k]? = some (b, c₁) ∧ c₁.Drops (B b) i v
  have hlater : ∀ {pre more i}, dropped pre i → dropped (pre ++ more) i := by
    rintro pre more i ⟨front, v, post, s₁, c₁, rfl, hrest⟩
    refine ⟨front, v, post ++ more, s₁, c₁, ?_, hrest⟩
    rw [append_assoc, cons_append]
  obtain ⟨c', hk', hheld, hwaiting⟩ := TreeDiffScopes.scope_induction
    (P := fun pre c' => (∀ i, c.Holds i → c'.Holds i) ∧
      ∀ i j, c.PendingAt j i → c'.Holds i ∨ c'.PendingAt j i ∨ dropped pre i)
    hbal hsteps hk ⟨fun _ h => h, fun _ _ h => .inr (.inl h)⟩
    (by
      rintro pre v post s₁ c₁ c₂ - hpre hs₁ hk₁ haffected ⟨hheld, hwaiting⟩
      rcases haffected with rfl | heffect
      · refine ⟨hheld, fun i j h => ?_⟩
        rcases hwaiting i j h with h | h | h
        · exact .inl h
        · exact .inr (.inl h)
        · exact .inr (.inr (hlater h))
      · refine ⟨fun i h => (Content.effect_keeps (hB b) heffect).1 (hheld i h), fun i j h => ?_⟩
        obtain ⟨hholds, hpends⟩ := Content.effect_keeps (hB b) heffect (i := i)
        rcases hwaiting i j h with h | h | h
        · exact .inl (hholds h)
        · rcases hpends j h with h | h | hdrop
          · exact .inl h
          · exact .inr (.inl h)
          · exact .inr (.inr ⟨pre, v, [], s₁, c₁, rfl, hpre, hs₁, hk₁, hdrop⟩)
        · exact .inr (.inr (hlater h)))
    (by
      rintro pre n inner n' c₁ c₂ - - haltered ⟨hheld, hwaiting⟩
      refine ⟨fun i h => (Content.altered_keeps haltered).1 (hheld i h), fun i j h => ?_⟩
      rcases hwaiting i j h with h | h | h
      · exact .inl ((Content.altered_keeps haltered).1 h)
      · exact .inr (.inl ((Content.altered_keeps haltered).2 j h))
      · exact .inr (.inr (hlater h)))
  refine ⟨c', hk', ?_⟩
  have hnone := TreeMutator.current_of_completeScope hcomplete hk'
  rintro i (h | ⟨j, h⟩)
  · exact .inl (hheld i h)
  · rcases hwaiting i j h with h | h | h
    · exact .inl h
    · exact absurd h (Content.not_pendingAt hnone j i)
    · exact .inr h

/-- **No silent loss.** A message is applied without an error, and has as many `emu` as `mut`. Then
each `mut` is closed by an `emu`, properly nested; traced from the elements of the target to those
of the result, the whole message settles the root scope, and what stands between a `mut` and its
`emu` settles the scope opened there. -/
theorem TreeDiffScopes.no_silent_loss (B : β → CollectionBinding β Elm) (H : RefHash)
    (hB : ∀ b, (B b).TakesUp) (target result : TreeMutator β Elm) (diff : List TreeDiffStep)
    (hrun : consume B H target diff = .ok result)
    (hcount : diff.countP TreeDiffStep.isMut = diff.countP TreeDiffStep.isEmu) :
    Balanced diff ∧
    (∃ s', ScopeSettled B H (initDiffApplication target.trace) diff s' ∧
      result = s'.current.map Traced.elm) ∧
    ∀ pre n body n' post s, diff = pre ++ .mut n :: (body ++ .emu n' :: post) → Balanced body →
      steps (fun b => (B b).traced) H (initDiffApplication target.trace) (pre ++ [.mut n]) = .ok s →
      ∃ s', ScopeSettled B H s body s' := by
  -- the traced run behind the plain one
  rw [consume_eq_traced] at hrun
  unfold consume at hrun
  cases hsteps : steps (fun b => (B b).traced) H (initDiffApplication target.trace) diff with
  | error e => rw [hsteps] at hrun; cases hrun
  | ok s' =>
    rw [hsteps] at hrun
    obtain ⟨hbal, houter⟩ := balanced_of_steps hsteps rfl hcount
    have hfinal : (completeDiffApplication (fun b => (B b).traced) s').map (·.map Traced.elm)
        = .ok result := hrun
    unfold completeDiffApplication at hfinal
    cases hcomplete : s'.current.completeScope with
    | false => rw [hcomplete] at hfinal; cases hfinal
    | true =>
      rw [hcomplete] at hfinal
      have htarget : s'.target (fun b => (B b).traced) = s'.current := by
        unfold TreeDiffScopes.target
        rw [houter]
        rfl
      rw [htarget] at hfinal
      refine ⟨hbal, ⟨s', scopeSettled_of_complete hB hbal hsteps hcomplete,
        (Except.ok.inj hfinal).symm⟩, ?_⟩
      intro pre n body n' post s hdiff hbody hs
      have hshift : pre ++ .mut n :: (body ++ .emu n' :: post)
          = (pre ++ [.mut n]) ++ (body ++ .emu n' :: post) := by
        rw [append_assoc]; rfl
      rw [hdiff, hshift, steps_append, hs] at hsteps
      obtain ⟨s₂, hs₂, hsteps⟩ := of_steps_append hsteps
      obtain ⟨s₃, hclose, -⟩ := of_steps_cons hsteps
      exact ⟨s₂, scopeSettled_of_complete hB hbody hs₂ (step_emu hclose).1⟩

/-! ## A record and two messages -/

theorem genNodeBinding_takesUp (H : RefHash) (husk : GenNode → GenNode) (scope : RecordScope) :
    (genNodeBinding H husk scope).TakesUp :=
  fun xs _ => ⟨xs.length, rfl, Nat.le_refl _⟩

/-- A node after moving from it: strings and collections are empty, the hash stays. -/
def GenNode.movedFrom : GenNode → GenNode
  | .mk idi (.text _) => .mk ⟨"", idi.hash⟩ (.text "")
  | .mk idi (.record _) => .mk ⟨"", idi.hash⟩ (.record (.mk "" [] []))
  | .mk idi data => .mk ⟨"", idi.hash⟩ data

namespace Sample

/-- Hashes of the marker nodes. -/
def hashes : RefHash := ⟨101, 102⟩

/-- A child holding a text. -/
def child (hash : Nat) (text : String) : GenNode := .mk ⟨"_CHILD_" ++ text, hash⟩ (.text text)

/-- A child holding a record with two children. -/
def nested : GenNode := .mk ⟨"_CHILD_sub", 3⟩ (.record (.mk "Sub" [] [child 4 "u", child 5 "v"]))

/-- A record with an attribute, a text and a nested record. -/
def record : Record := .mk "Top" [.mk ⟨"a", 1⟩ (.text "A")] [child 2 "x", nested]

/-- The names of the children of nested records. -/
def nestedNames (r : Record) : List (List String) :=
  r.children.filterMap fun n =>
    n.data.maybeAccessNestedRec.map fun sub => sub.children.map fun e => e.idi.sym

/-- Reorders the children and removes one in the nested scope. -/
def reorder : List TreeDiffStep :=
  [.after hashes.refATTRIBS, .find nested, .pick (child 2 "x"), .skip nested,
    .mut nested, .del (child 4 "u"), .pick (child 5 "v"), .emu nested]

/-- Skips an element of the nested scope never fetched, and leaves the scope under another ID. -/
def careless : List TreeDiffStep :=
  [.after hashes.refEND, .mut nested, .skip (child 9 "w"), .pick (child 5 "v"),
    .emu (child 2 "x")]

end Sample

/-- The result of reordering a record settles the root scope. -/
theorem TreeDiffScopes.no_silent_loss_reorder :
    ∃ s', ScopeSettled (genNodeBinding Sample.hashes GenNode.movedFrom) Sample.hashes
      (initDiffApplication Sample.record.buildMutator.trace) Sample.reorder s' := by
  obtain ⟨-, ⟨s', hsettled, -⟩, -⟩ := no_silent_loss
    (genNodeBinding Sample.hashes GenNode.movedFrom) Sample.hashes
    (genNodeBinding_takesUp Sample.hashes GenNode.movedFrom) Sample.record.buildMutator _
    Sample.reorder rfl (by decide)
  exact ⟨s', hsettled⟩

/-- **A message applied without an error loses an element**: neither `del` nor `find` mentions it,
and the scope it was in is left by an `emu` with another ID than the `mut`. -/
theorem TreeDiffScopes.careless_loses :
    ((Sample.record.applyDiff Sample.hashes GenNode.movedFrom Sample.careless).toOption.map
      Sample.nestedNames = some [["_CHILD_v"]]) ∧
    Sample.nestedNames Sample.record = [["_CHILD_u", "_CHILD_v"]] ∧
    (∀ n, .del n ∉ Sample.careless ∧ .find n ∉ Sample.careless) ∧
    ∃ n n', .mut n ∈ Sample.careless ∧ .emu n' ∈ Sample.careless ∧
      Sample.careless.countP TreeDiffStep.isMut = 1 ∧
      Sample.careless.countP TreeDiffStep.isEmu = 1 ∧ n.idi.sameID n'.idi = false := by
  refine ⟨by decide, by decide, fun n => ?_, Sample.nested, Sample.child 2 "x", ?_⟩
  · constructor
    · simp [Sample.careless]
    · simp [Sample.careless]
  · refine ⟨?_, ?_, by decide, by decide, by decide⟩
    · simp [Sample.careless]
    · simp [Sample.careless]

end Lumiera.Lib.Diff
