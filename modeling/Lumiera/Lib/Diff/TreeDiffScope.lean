import Mathlib.Data.List.Forall2
import Lumiera.Lib.Diff.TreeMutator

/-! # The course of a scope

What one verb can do to the layers of the current mutator is stated once (`Effect`, `applyTo_spec`).
A nested scope is left to the very state it was entered from, but for the element it was opened
on, so the verbs between entering and leaving a scope form a balanced sequence (`Balanced`); what
each verb preserves for a layer is carried over a whole scope by `scope_induction`. -/

namespace Lumiera.Lib.Diff

open List

variable {β Elm : Type}

/-! ## What a verb does to one layer -/

namespace Content

/-- Moving the next element over and advancing. -/
def accept (B : CollectionBinding β Elm) (c : Content Elm) (e : Elm) : Content Elm :=
  (c.moveIn B.trait B.movedFrom c.pos e).advance

/-- Elements accepted one after the other, none of them meeting `stop`. -/
inductive AcceptRun (B : CollectionBinding β Elm) (stop : Elm → Bool) :
    Content Elm → Content Elm → Prop
  | done (c : Content Elm) : AcceptRun B stop c c
  | next {c c' : Content Elm} {e : Elm} (hcurrent : c.current = some e) (hgo : stop e = false)
      (hrest : AcceptRun B stop (c.accept B e) c') : AcceptRun B stop c c'

theorem acceptRun_acceptWhileNot (B : CollectionBinding β Elm) (stop : Elm → Bool) (n : Nat) (c : Content Elm) :
    AcceptRun B stop c (acceptWhileNot B.trait B.movedFrom stop n c) := by
  induction n generalizing c with
  | zero => exact .done c
  | succ n ih =>
    unfold acceptWhileNot
    cases hcurrent : c.current with
    | none => exact .done c
    | some e =>
      dsimp only
      by_cases hstop : stop e = true
      · rw [if_pos hstop]
        exact .done c
      · rw [if_neg hstop]
        exact .next hcurrent (Bool.eq_false_iff.mpr hstop) (ih _)

/-- **What a verb does to the content of the layer responsible for it.** -/
def Effect (B : CollectionBinding β Elm) (H : RefHash) (c c' : Content Elm) :
    TreeDiffStep → Prop
  | .ins n => ∃ e, B.construct n = .ok e ∧ c' = c.inject B.trait e
  | .del n => ∃ e, c.current = some e ∧ B.matchElement n e = true ∧ c' = c.advance
  | .pick n => ∃ e, c.current = some e ∧ B.matchElement n e = true ∧ c' = c.accept B e
  | .find n => ∃ i e, c.pos ≤ i ∧ c.contentBuffer[i]? = some e ∧ B.matchElement n e = true ∧
      c' = c.moveIn B.trait B.movedFrom i e
  | .skip _ => ∃ e, c.current = some e ∧ c' = c.advance
  | .after n =>
    (TreeMutator.acceptsAll H B n = .ok true ∧ AcceptRun B (fun _ => false) c c') ∨
    ∃ c₁ e, AcceptRun B (B.matchElement n) c c₁ ∧ c₁.current = some e ∧
      B.matchElement n e = true ∧ c' = c₁.accept B e
  | .set n => ∃ i e e', c.collection[i]? = some e ∧ B.assign e n = .ok (some e') ∧
      c' = { c with collection := c.collection.set i e' }
  | .mut _ => False
  | .emu _ => False

theorem search_spec {p : Elm → Bool} {xs : List Elm} {start i : Nat}
    (h : search p xs start = some i) : start ≤ i ∧ ∃ e, xs[i]? = some e ∧ p e = true := by
  obtain ⟨k, hk, rfl⟩ := Option.map_eq_some_iff.mp h
  refine ⟨Nat.le_add_left _ _, ?_⟩
  obtain ⟨hlt, hp, -⟩ := findIdx?_eq_some_iff_getElem.mp hk
  refine ⟨(xs.drop start)[k], ?_, hp⟩
  rw [← getElem?_eq_getElem hlt, getElem?_drop, Nat.add_comm]

end Content

/-! ## What a verb does to the mutator -/

namespace TreeMutator

/-- The bound collections with their bindings, outermost first. -/
def layers : TreeMutator β Elm → List (β × Content Elm)
  | base => []
  | childCollection b c par => (b, c) :: par.layers
  | objectTypeHandler _ par => par.layers

/-- Layers related one by one, with the same bindings. -/
def Related (R : β → Content Elm → Content Elm → Prop) (m m' : TreeMutator β Elm) : Prop :=
  List.Forall₂ (fun l l' => l.1 = l'.1 ∧ R l.1 l.2 l'.2) m.layers m'.layers

/-- A layer a verb was applied to: as it was, or changed as the verb demands. -/
def Affected (B : β → CollectionBinding β Elm) (H : RefHash) (v : TreeDiffStep) (b : β)
    (c c' : Content Elm) : Prop :=
  c' = c ∨ c.Effect (B b) H c' v

variable {B : β → CollectionBinding β Elm} {H : RefHash}

variable {R : β → Content Elm → Content Elm → Prop}

theorem Related.refl (hR : ∀ b c, R b c c) (m : TreeMutator β Elm) : Related R m m :=
  List.forall₂_same.mpr fun l _ => ⟨rfl, hR l.1 l.2⟩

variable {v : TreeDiffStep} {c : Content Elm} {par : TreeMutator β Elm}

theorem Related.here {b : β} {c' : Content Elm} (h : c.Effect (B b) H c' v) :
    Related (Affected B H v) (childCollection b c par) (childCollection b c' par) :=
  .cons ⟨rfl, .inr h⟩ (Related.refl (fun _ _ => .inl rfl) par)

variable {par' : TreeMutator β Elm}

theorem Related.below {b : β} (h : Related (Affected B H v) par par') :
    Related (Affected B H v) (childCollection b c par) (childCollection b c par') :=
  .cons ⟨rfl, .inl rfl⟩ h

theorem Related.inner {t t' : String} (h : Related R par par') : Related R (objectTypeHandler t par)
    (objectTypeHandler t' par') := h

theorem of_delegate {α δ : Type} {k : α → δ} {r : Except TreeDiffError (Option α)} {d : δ}
    (h : (do return (← r).map k) = Except.ok (some d)) : ∃ a, r = .ok (some a) ∧ d = k a := by
  cases r with
  | error e => cases h
  | ok r =>
    cases r with
    | none => cases h
    | some a =>
      cases h
      exact ⟨a, rfl, rfl⟩

theorem of_returned {α δ : Type} {k : α → δ} {r : Except TreeDiffError α} {d : δ}
    (h : (do return k (← r)) = Except.ok d) : ∃ a, r = .ok a ∧ d = k a := by
  cases r with
  | error e => cases h
  | ok a =>
    cases h
    exact ⟨a, rfl, rfl⟩

theorem of_selected {δ : Type} {r : Except TreeDiffError Bool} {here below : Except TreeDiffError δ}
    {d : δ} (h : (do if ← r then here else below) = Except.ok d) :
    (r = .ok true ∧ here = .ok d) ∨ (r = .ok false ∧ below = .ok d) := by
  cases r with
  | error e => cases h
  | ok app =>
    cases app with
    | true => exact .inl ⟨rfl, h⟩
    | false => exact .inr ⟨rfl, h⟩

variable {n : GenNode} {m m' : TreeMutator β Elm}

/-- The type handler takes a type, and delegates everything else. -/
theorem of_typed {t : String} {r : Except TreeDiffError (Option (TreeMutator β Elm))}
    (hpar : ∀ par', r = .ok (some par') → Related (Affected B H v) par par') (h : (do
      if n.isNamed && n.isTypeID then return some (objectTypeHandler (← typeOfSpec n) par)
      else return (← r).map (objectTypeHandler t)) = Except.ok (some m')) :
    Related (Affected B H v) (objectTypeHandler t par) m' := by
  by_cases htype : (n.isNamed && n.isTypeID) = true
  · rw [if_pos htype] at h
    obtain ⟨t', -, heq⟩ := of_returned h
    cases heq
    exact Related.refl (fun _ _ => .inl rfl) par
  · rw [if_neg htype] at h
    obtain ⟨par', hok, rfl⟩ := of_delegate h
    exact Related.inner (hpar par' hok)

theorem injectNew_spec (h : m.injectNew B n = .ok (some m')) : Related (Affected B H (.ins n)) m m' := by
  induction m generalizing m' with
  | base => cases h
  | childCollection b c par ih =>
    rcases of_selected h with ⟨-, h⟩ | ⟨-, h⟩
    · obtain ⟨e, hbuild, heq⟩ := of_returned h
      cases heq
      exact Related.here ⟨e, hbuild, rfl⟩
    · obtain ⟨par', hpar, rfl⟩ := of_delegate h
      exact Related.below (ih hpar)
  | objectTypeHandler t par ih => exact of_typed (fun _ => ih) h

theorem acceptSrc_spec (h : m.acceptSrc B n = .ok (some m')) : Related (Affected B H (.pick n)) m m' := by
  induction m generalizing m' with
  | base => cases h
  | childCollection b c par ih =>
    rcases of_selected h with ⟨-, h⟩ | ⟨-, h⟩
    · cases hcurrent : c.current with
      | none => rw [hcurrent] at h; cases h
      | some e =>
        rw [hcurrent] at h
        dsimp only at h
        by_cases hmatch : (B b).matchElement n e = true
        · rw [if_pos hmatch] at h
          cases h
          exact Related.here ⟨e, hcurrent, hmatch, rfl⟩
        · rw [if_neg hmatch] at h
          cases h
    · obtain ⟨par', hpar, rfl⟩ := of_delegate h
      exact Related.below (ih hpar)
  | objectTypeHandler t par ih =>
    obtain ⟨par', hpar, rfl⟩ := of_delegate h
    exact Related.inner (ih hpar)

theorem findSrc_spec (h : m.findSrc B n = .ok (some m')) : Related (Affected B H (.find n)) m m' := by
  induction m generalizing m' with
  | base => cases h
  | childCollection b c par ih =>
    rcases of_selected h with ⟨-, h⟩ | ⟨-, h⟩
    · cases hsearch : Content.search ((B b).matchElement n) c.contentBuffer c.pos with
      | none => rw [hsearch] at h; cases h
      | some i =>
        obtain ⟨hpos, e, he, hmatch⟩ := Content.search_spec hsearch
        rw [hsearch] at h
        dsimp only at h
        rw [he] at h
        cases h
        exact Related.here ⟨i, e, hpos, he, hmatch, rfl⟩
    · obtain ⟨par', hpar, rfl⟩ := of_delegate h
      exact Related.below (ih hpar)
  | objectTypeHandler t par ih =>
    obtain ⟨par', hpar, rfl⟩ := of_delegate h
    exact Related.inner (ih hpar)

/-- With `after`, all layers down to the one finding the element may be affected. -/
theorem acceptUntil_spec (h : m.acceptUntil B H n = .ok (some m')) : Related (Affected B H (.after n)) m m' := by
  induction m generalizing m' with
  | base =>
    have hbase : m' = base := by
      unfold acceptUntil at h
      split at h
      · cases h; rfl
      · cases h
    rw [hbase]
    exact .nil
  | childCollection b c par ih =>
    rcases of_selected h with ⟨hall, h⟩ | ⟨-, h⟩
    · obtain ⟨par', hpar, rfl⟩ := of_delegate h
      exact .cons ⟨rfl, .inr (.inl ⟨hall, Content.acceptRun_acceptWhileNot _ _ _ _⟩)⟩ (ih hpar)
    · rcases of_selected h with ⟨-, h⟩ | ⟨-, h⟩
      · have hrun := Content.acceptRun_acceptWhileNot (B b) ((B b).matchElement n) c.pending c
        revert hrun h
        generalize c.acceptWhileNot (B b).trait (B b).movedFrom ((B b).matchElement n)
          c.pending = c₁
        intro h hrun
        dsimp only at h
        cases hcurrent : c₁.current with
        | none => rw [hcurrent] at h; cases h
        | some e =>
          rw [hcurrent] at h
          dsimp only at h
          by_cases hmatch : (B b).matchElement n e = true
          · rw [if_pos hmatch] at h
            cases h
            exact Related.here (.inr ⟨c₁, e, hrun, hcurrent, hmatch, rfl⟩)
          · rw [if_neg hmatch] at h
            cases h
      · obtain ⟨par', hpar, rfl⟩ := of_delegate h
        exact Related.below (ih hpar)
  | objectTypeHandler t par ih =>
    obtain ⟨par', hpar, rfl⟩ := of_delegate h
    exact Related.inner (ih hpar)

theorem assignElm_spec (h : m.assignElm B n = .ok (some m')) : Related (Affected B H (.set n)) m m' := by
  induction m generalizing m' with
  | base => cases h
  | childCollection b c par ih =>
    rcases of_selected h with ⟨-, h⟩ | ⟨-, h⟩
    · cases hlocate : c.locate (B b).trait ((B b).matchElement n) with
      | none => rw [hlocate] at h; cases h
      | some i =>
        rw [hlocate] at h
        dsimp only at h
        cases hslot : c.collection[i]? with
        | none => rw [hslot] at h; cases h
        | some e =>
          rw [hslot] at h
          obtain ⟨e', hassign, rfl⟩ := of_delegate h
          exact Related.here ⟨i, e, e', hslot, hassign, rfl⟩
    · obtain ⟨par', hpar, rfl⟩ := of_delegate h
      exact Related.below (ih hpar)
  | objectTypeHandler t par ih => exact of_typed (fun _ => ih) h

theorem skipSrc_spec (h : m.skipSrc B n = .ok m') : Related (Affected B H (.skip n)) m m' := by
  induction m generalizing m' with
  | base => cases h; exact .nil
  | childCollection b c par ih =>
    rcases of_selected h with ⟨-, h⟩ | ⟨-, h⟩
    · cases h
      cases hcurrent : c.current with
      | none => exact Related.refl (fun _ _ => .inl rfl) (childCollection b c par)
      | some e => exact Related.here ⟨e, hcurrent, rfl⟩
    · obtain ⟨par', hpar, rfl⟩ := of_returned h
      exact Related.below (ih hpar)
  | objectTypeHandler t par ih =>
    obtain ⟨par', hpar, rfl⟩ := of_returned h
    exact Related.inner (ih hpar)

theorem matchSrc_skipSrc_spec (hmatch : m.matchSrc B n = .ok true) (h : m.skipSrc B n = .ok m') :
    Related (Affected B H (.del n)) m m' := by
  induction m generalizing m' with
  | base => cases hmatch
  | childCollection b c par ih =>
    rcases of_selected h with ⟨happ, h⟩ | ⟨happ, h⟩
    · cases h
      rcases of_selected hmatch with ⟨-, hmatch⟩ | ⟨hnot, -⟩
      · cases hcurrent : c.current with
        | none => rw [hcurrent] at hmatch; cases hmatch
        | some e =>
          rw [hcurrent] at hmatch
          exact Related.here ⟨e, hcurrent, Except.ok.inj hmatch, rfl⟩
      · rw [happ] at hnot; cases hnot
    · rcases of_selected hmatch with ⟨hyes, -⟩ | ⟨-, hmatch⟩
      · rw [happ] at hyes; cases hyes
      · obtain ⟨par', hpar, rfl⟩ := of_returned h
        exact Related.below (ih hmatch hpar)
  | objectTypeHandler t par ih =>
    obtain ⟨par', hpar, rfl⟩ := of_returned h
    exact Related.inner (ih hmatch hpar)

/-- A collection in which an element was changed through its nested scope, or none. -/
def Altered (B : CollectionBinding β Elm) (c c' : Content Elm) : Prop :=
  c' = c ∨
    ∃ i sub, c' = { c with collection := c.collection.modify i fun e => B.writeBack e sub }

theorem writeBack_spec (sub : TreeMutator β Elm) (elm k : Nat) (m : TreeMutator β Elm) :
    Related (fun b => Altered (B b)) m (writeBack B sub elm k m) := by
  induction m generalizing k with
  | base => cases k <;> exact .nil
  | childCollection b c par ih =>
    cases k with
    | zero =>
      have hpar : Related (fun b => Altered (B b)) par par := Related.refl (fun _ _ => .inl rfl) par
      exact .cons ⟨rfl, .inr ⟨elm, sub, rfl⟩⟩ hpar
    | succ k => exact .cons ⟨rfl, .inl rfl⟩ (ih k)
  | objectTypeHandler t par ih =>
    cases k with
    | zero => exact Related.refl (fun _ _ => .inl rfl) _
    | succ k => exact Related.inner (ih k)

theorem Related.layer (h : Related R m m') {k : Nat} {b : β} (hk : m.layers[k]? = some (b, c)) :
    ∃ c', m'.layers[k]? = some (b, c') ∧ R b c c' := by
  unfold Related at h
  generalize m.layers = ls at h hk
  generalize m'.layers = ls' at h
  induction h generalizing k with
  | nil => cases hk
  | @cons l l' ls ls' hl _ ih =>
    cases k with
    | zero =>
      cases hk
      obtain ⟨b', c'⟩ := l'
      obtain ⟨hb, hR⟩ := hl
      cases hb
      exact ⟨c', rfl, hR⟩
    | succ k => exact ih hk

end TreeMutator

/-! ## Balanced sequences of verbs -/

/-- Verbs which stay within the current scope. -/
def TreeDiffStep.inScope : TreeDiffStep → Bool
  | .mut _ => false
  | .emu _ => false
  | _ => true

/-- Each `mut` is closed by an `emu` further on, in properly nested order. The nodes given with
the two verbs are not related to each other. -/
inductive Balanced : List TreeDiffStep → Prop
  | nil : Balanced []
  | verb {v : TreeDiffStep} {rest : List TreeDiffStep} (hv : v.inScope = true)
      (hrest : Balanced rest) : Balanced (v :: rest)
  | scope {n n' : GenNode} {inner rest : List TreeDiffStep} (hinner : Balanced inner)
      (hrest : Balanced rest) : Balanced (.mut n :: (inner ++ .emu n' :: rest))

theorem Balanced.append {diff rest : List TreeDiffStep} (h : Balanced diff)
    (hrest : Balanced rest) : Balanced (diff ++ rest) := by
  induction h with
  | nil => exact hrest
  | verb hv _ ih => exact .verb hv ih
  | @scope n n' inner tail hinner _ _ ih =>
    rw [cons_append, append_assoc]
    exact .scope hinner ih

theorem Balanced.bracket {n n' : GenNode} {inner : List TreeDiffStep} (h : Balanced inner) :
    Balanced (.mut n :: (inner ++ [.emu n'])) := .scope h .nil

namespace TreeDiffScopes

variable {B : β → CollectionBinding β Elm} {H : RefHash}

variable {v : TreeDiffStep}

/-- What a verb does to the current mutator. -/
theorem applyTo_spec {m m' : TreeMutator β Elm} (h : applyTo B H m v = .ok m') :
    TreeMutator.Related (TreeMutator.Affected B H v) m m' := by
  -- the operation behind the verb succeeded, or the verb raised an error
  have hop : ∀ {err} {r : Except TreeDiffError (Option (TreeMutator β Elm))},
      (do orFail err (← r)) = Except.ok m' → r = .ok (some m') := by
    intro err r hr
    cases r with
    | error e => cases hr
    | ok r =>
      cases r with
      | none => cases hr
      | some a => cases hr; rfl
  cases v with
  | ins n => exact TreeMutator.injectNew_spec (hop h)
  | del n =>
    simp only [applyTo] at h
    cases hsrc : m.hasSrc with
    | false => rw [hsrc] at h; cases h
    | true =>
      rw [hsrc] at h
      rcases TreeMutator.of_selected h with ⟨hmatch, h⟩ | ⟨-, h⟩
      · exact TreeMutator.matchSrc_skipSrc_spec hmatch h
      · cases h
  | pick n => exact TreeMutator.acceptSrc_spec (hop h)
  | find n =>
    simp only [applyTo] at h
    cases hsrc : m.hasSrc with
    | false => rw [hsrc] at h; cases h
    | true => rw [hsrc, if_pos rfl] at h; exact TreeMutator.findSrc_spec (hop h)
  | skip n =>
    simp only [applyTo] at h
    cases hsrc : m.hasSrc with
    | false => rw [hsrc] at h; cases h
    | true => rw [hsrc, if_pos rfl] at h; exact TreeMutator.skipSrc_spec h
  | after n => exact TreeMutator.acceptUntil_spec (hop h)
  | set n => exact TreeMutator.assignElm_spec (hop h)
  | «mut» n => cases h; exact TreeMutator.Related.refl (fun _ _ => .inl rfl) m
  | emu n => cases h; exact TreeMutator.Related.refl (fun _ _ => .inl rfl) m

/-! ## Steps of a diff -/

theorem steps_cons (s : TreeDiffScopes β Elm) (v : TreeDiffStep) (diff : List TreeDiffStep) :
    steps B H s (v :: diff) = (do steps B H (← step B H s v) diff) := foldlM_cons

theorem steps_append (s : TreeDiffScopes β Elm) (diff rest : List TreeDiffStep) :
    steps B H s (diff ++ rest) = (do steps B H (← steps B H s diff) rest) := foldlM_append

variable {s s' : TreeDiffScopes β Elm} {diff : List TreeDiffStep}

theorem of_steps_cons (h : steps B H s (v :: diff) = .ok s') :
    ∃ s₁, step B H s v = .ok s₁ ∧ steps B H s₁ diff = .ok s' := by
  rw [steps_cons] at h
  cases hfirst : step B H s v with
  | error e => rw [hfirst] at h; cases h
  | ok s₁ => rw [hfirst] at h; exact ⟨s₁, rfl, h⟩

theorem of_steps_append {rest : List TreeDiffStep} (h : steps B H s (diff ++ rest) = .ok s') :
    ∃ s₁, steps B H s diff = .ok s₁ ∧ steps B H s₁ rest = .ok s' := by
  rw [steps_append] at h
  cases hfirst : steps B H s diff with
  | error e => rw [hfirst] at h; cases h
  | ok s₁ => rw [hfirst] at h; exact ⟨s₁, rfl, h⟩

variable {s₁ s₂ : TreeDiffScopes β Elm}

theorem steps_snoc (h : steps B H s diff = .ok s₁) (hstep : step B H s₁ v = .ok s₂) :
    steps B H s (diff ++ [v]) = .ok s₂ := by
  rw [steps_append, h]
  show steps B H s₁ [v] = _
  rw [steps_cons, hstep]
  rfl

theorem step_inScope (hv : v.inScope = true) (h : step B H s v = .ok s') :
    s'.outer = s.outer ∧ TreeMutator.Related (TreeMutator.Affected B H v) s.current s'.current := by
  have hscope : step B H s v = (do return { s with current := ← applyTo B H s.current v }) := by
    cases v with
    | «mut» n => cases hv
    | emu n => cases hv
    | _ => rfl
  rw [hscope] at h
  cases happly : applyTo B H s.current v with
  | error e => rw [happly] at h; cases h
  | ok m =>
    rw [happly] at h
    cases h
    exact ⟨rfl, applyTo_spec happly⟩

theorem step_mut {n : GenNode} (h : step B H s (.mut n) = .ok s') :
    ∃ locus, s.current.mutateChild B n = .ok (some (locus, s'.current)) ∧
      s'.outer = (s.current, locus) :: s.outer := by
  simp only [step] at h
  cases hopen : s.current.mutateChild B n with
  | error e => rw [hopen] at h; cases h
  | ok r =>
    rw [hopen] at h
    cases r with
    | none => cases h
    | some p =>
      cases h
      exact ⟨p.1, rfl, rfl⟩

theorem step_emu {n : GenNode} (h : step B H s (.emu n) = .ok s') : s.current.completeScope = true ∧ ∃ par locus,
    s.outer = (par, locus) :: s'.outer ∧ s'.current = .writeBack B s.current locus.elm locus.layer par := by
  simp only [step] at h
  cases hcomplete : s.current.completeScope with
  | false => rw [hcomplete] at h; cases h
  | true =>
    rw [hcomplete] at h
    cases houter : s.outer with
    | nil => rw [houter] at h; cases h
    | cons p outer =>
      rw [houter] at h
      cases h
      exact ⟨rfl, p.1, p.2, rfl, rfl⟩

variable {body : List TreeDiffStep}

/-- A balanced sequence of verbs leads back to the scope it started in. -/
theorem outer_of_balanced (hbal : Balanced body) (h : steps B H s body = .ok s') : s'.outer = s.outer := by
  induction hbal generalizing s s' with
  | nil => cases h; rfl
  | verb hv _ ih =>
    obtain ⟨s₁, hfirst, hrest⟩ := of_steps_cons h
    rw [ih hrest, (step_inScope hv hfirst).1]
  | scope _ _ ihinner ihrest =>
    obtain ⟨s₁, hopen, h⟩ := of_steps_cons h
    obtain ⟨s₂, hinner, h⟩ := of_steps_append h
    obtain ⟨s₃, hclose, hrest⟩ := of_steps_cons h
    obtain ⟨locus, -, houter₁⟩ := step_mut hopen
    obtain ⟨-, par, locus', houter₃, -⟩ := step_emu hclose
    have hstack : (par, locus') :: s₃.outer = (s.current, locus) :: s.outer := by
      rw [← houter₃, ihinner hinner, houter₁]
    rw [ihrest hrest]
    exact (List.cons.inj hstack).2

/-- A nested scope, from entering to leaving, alters one element of the scope around it. -/
theorem nested_spec {s₃ : TreeDiffScopes β Elm} {n n' : GenNode} {inner : List TreeDiffStep}
    (hinner : Balanced inner) (hopen : step B H s (.mut n) = .ok s₁) (hsteps : steps B H s₁ inner = .ok s₂)
    (hclose : step B H s₂ (.emu n') = .ok s₃) :
    s₃.outer = s.outer ∧ TreeMutator.Related (fun b => TreeMutator.Altered (B b)) s.current s₃.current := by
  obtain ⟨locus, -, houter₁⟩ := step_mut hopen
  obtain ⟨-, par, locus', houter₃, hback⟩ := step_emu hclose
  have hstack : (par, locus') :: s₃.outer = (s.current, locus) :: s.outer := by
    rw [← houter₃, outer_of_balanced hinner hsteps, houter₁]
  obtain ⟨hpar, houter⟩ := List.cons.inj hstack
  refine ⟨houter, ?_⟩
  rw [hback, (Prod.mk.inj hpar).1]
  exact TreeMutator.writeBack_spec _ _ _ _

/-- **Induction over the course of a scope**: a statement about the verbs so far and the content
of one layer holds at the end of the scope when it holds at its start and is kept by each verb
within the scope and by each nested scope. -/
theorem scope_induction {P : List TreeDiffStep → Content Elm → Prop} {k : Nat} {b : β}
    {c : Content Elm}
    (hbal : Balanced body) (hsteps : steps B H s body = .ok s')
    (hlayer : s.current.layers[k]? = some (b, c)) (hstart : P [] c)
    (hverb : ∀ pre v post s₁ c₁ c₂, body = pre ++ v :: post → Balanced pre →
      steps B H s pre = .ok s₁ → s₁.current.layers[k]? = some (b, c₁) →
      TreeMutator.Affected B H v b c₁ c₂ → P pre c₁ → P (pre ++ [v]) c₂)
    (hnested : ∀ pre n inner n' c₁ c₂, Balanced pre → Balanced inner →
      TreeMutator.Altered (B b) c₁ c₂ → P pre c₁ →
      P (pre ++ .mut n :: (inner ++ [.emu n'])) c₂) :
    ∃ c', s'.current.layers[k]? = some (b, c') ∧ P body c' := by
  -- induction on what is still to come; `pre` are the verbs before it
  have hcourse : ∀ {rest : List TreeDiffStep}, Balanced rest → ∀ pre s₁ c₁, body = pre ++ rest →
      Balanced pre → steps B H s pre = .ok s₁ → s₁.current.layers[k]? = some (b, c₁) →
      P pre c₁ → steps B H s₁ rest = .ok s' →
      ∃ c', s'.current.layers[k]? = some (b, c') ∧ P (pre ++ rest) c' := by
    intro rest hrest
    induction hrest with
    | nil =>
      intro pre s₁ c₁ _ _ _ hk hP h
      cases h
      rw [append_nil]
      exact ⟨c₁, hk, hP⟩
    | @verb v rest hv hrest ih =>
      intro pre s₁ c₁ hbody hpre hs₁ hk hP h
      obtain ⟨s₂, hfirst, h⟩ := of_steps_cons h
      obtain ⟨c₂, hk₂, haffected⟩ := (step_inScope hv hfirst).2.layer hk
      have hP₂ := hverb pre v rest s₁ c₁ c₂ hbody hpre hs₁ hk haffected hP
      have hshift : pre ++ v :: rest = (pre ++ [v]) ++ rest := by
        rw [append_assoc]; rfl
      rw [hshift] at hbody ⊢
      exact ih (pre ++ [v]) s₂ c₂ hbody (hpre.append (.verb hv .nil)) (steps_snoc hs₁ hfirst)
        hk₂ hP₂ h
    | @scope n n' inner rest hinner hrest _ ih =>
      intro pre s₁ c₁ hbody hpre hs₁ hk hP h
      obtain ⟨s₂, hopen, h⟩ := of_steps_cons h
      obtain ⟨s₃, hsteps₃, h⟩ := of_steps_append h
      obtain ⟨s₄, hclose, h⟩ := of_steps_cons h
      obtain ⟨c₂, hk₂, haltered⟩ := (nested_spec hinner hopen hsteps₃ hclose).2.layer hk
      have hP₂ := hnested pre n inner n' c₁ c₂ hpre hinner haltered hP
      have hshift : pre ++ .mut n :: (inner ++ .emu n' :: rest)
          = (pre ++ .mut n :: (inner ++ [.emu n'])) ++ rest := by
        rw [append_assoc, cons_append, append_assoc]; rfl
      have hs₄ : steps B H s (pre ++ .mut n :: (inner ++ [.emu n'])) = .ok s₄ := by
        rw [steps_append, hs₁]
        show steps B H s₁ _ = _
        rw [steps_cons, hopen]
        exact steps_snoc hsteps₃ hclose
      rw [hshift] at hbody ⊢
      exact ih _ s₄ c₂ hbody (hpre.append hinner.bracket) hs₄ hk₂ hP₂ h
  exact hcourse hbal [] s c rfl .nil rfl hlayer hstart hsteps

end TreeDiffScopes

end Lumiera.Lib.Diff
