import Mathlib.Data.List.InsertIdx
import Lumiera.Lib.Diff.TreeDiffScope

/-! # Tracing elements through a tree diff

To tell what became of each original element, a diff is applied to **traced** elements: each
carries its `Source`, which no operation looks at. Dropping the sources turns the run on traced
elements into the run on the plain ones, step by step (`steps_map`); this holds for every map of
elements which respects the closures of the bindings (`BindingHom`), so that a statement about
the sources found after a traced run is a statement about the plain run. -/

namespace Lumiera.Lib.Diff

open List

variable {β Elm Elm' : Type}

/-! ## Mapping elements -/

/-- The content with each element mapped. -/
def Content.map (f : Elm → Elm') (c : Content Elm) : Content Elm' :=
  ⟨c.collection.map f, c.contentBuffer.map f, c.pos⟩

/-- The mutator with each element of its layers mapped. -/
def TreeMutator.map (f : Elm → Elm') : TreeMutator β Elm → TreeMutator β Elm'
  | base => base
  | childCollection b c par => childCollection b (c.map f) (par.map f)
  | objectTypeHandler t par => objectTypeHandler t (par.map f)

/-- The open scopes with each element mapped. -/
def TreeDiffScopes.map (f : Elm → Elm') (s : TreeDiffScopes β Elm) : TreeDiffScopes β Elm' :=
  ⟨s.current.map f, s.outer.map fun p => (p.1.map f, p.2)⟩

/-- Maps the result of an operation which may report `false`. -/
def mapResult {α α' : Type} (g : α → α') (r : Except TreeDiffError (Option α)) :
    Except TreeDiffError (Option α') :=
  r.map (Option.map g)

/-- **A map of elements which respects the closures of two bindings.** -/
structure BindingHom (f : Elm → Elm') (B : CollectionBinding β Elm)
    (B' : CollectionBinding β Elm') : Prop where
  insertPos : ∀ xs e, B'.trait.insertPos (xs.map f) (f e) = B.trait.insertPos xs e
  recentElm : ∀ xs, B'.trait.recentElm (xs.map f) = B.trait.recentElm xs
  matchElement : ∀ n e, B'.matchElement n (f e) = B.matchElement n e
  construct : ∀ n, B'.construct n = (B.construct n).map f
  isApplicable : ∀ n, B'.isApplicable n = B.isApplicable n
  assign : ∀ e n, B'.assign (f e) n = mapResult f (B.assign e n)
  openSub : ∀ e i, B'.openSub (f e) i = mapResult (TreeMutator.map f) (B.openSub e i)
  writeBack : ∀ e m, B'.writeBack (f e) (m.map f) = f (B.writeBack e m)
  movedFrom : ∀ e, B'.movedFrom (f e) = f (B.movedFrom e)

/-! ## The operations respect the map -/

namespace Content

variable {f : Elm → Elm'} {B : CollectionBinding β Elm} {B' : CollectionBinding β Elm'}

@[simp] theorem pos_map (f : Elm → Elm') (c : Content Elm) : (c.map f).pos = c.pos := rfl

@[simp] theorem current_map (f : Elm → Elm') (c : Content Elm) : (c.map f).current = c.current.map f := by
  show (c.contentBuffer.map f)[c.pos]? = (c.contentBuffer[c.pos]?).map f
  rw [getElem?_map]

@[simp] theorem pending_map (f : Elm → Elm') (c : Content Elm) : (c.map f).pending = c.pending := by
  show (c.contentBuffer.map f).length - c.pos = c.contentBuffer.length - c.pos
  rw [length_map]

theorem initMutation_map (f : Elm → Elm') (c : Content Elm) : (c.map f).initMutation = c.initMutation.map f := rfl

theorem advance_map (f : Elm → Elm') (c : Content Elm) : (c.map f).advance = c.advance.map f := rfl

theorem inject_map (hom : BindingHom f B B') (c : Content Elm) (e : Elm) :
    (c.map f).inject B'.trait (f e) = (c.inject B.trait e).map f := by
  unfold inject map
  simp only [hom.insertPos]
  cases B.trait.insertPos c.collection e with
  | none => rfl
  | some k => simp only [map_insertIdx]

theorem moveIn_map (hom : BindingHom f B B') (c : Content Elm) (i : Nat) (e : Elm) :
    (c.map f).moveIn B'.trait B'.movedFrom i (f e) = (c.moveIn B.trait B.movedFrom i e).map f := by
  unfold moveIn
  rw [inject_map hom, hom.movedFrom]
  have hbuffer : (c.map f).contentBuffer.set i (f (B.movedFrom e))
      = (c.contentBuffer.set i (B.movedFrom e)).map f := map_set.symm
  rw [hbuffer]
  rfl

theorem search_map (p : Elm' → Bool) (xs : List Elm) (start : Nat) :
    search p (xs.map f) start = search (p ∘ f) xs start := by
  unfold search
  rw [← map_drop, findIdx?_map]

theorem locate_map (hom : BindingHom f B B') (p : Elm' → Bool) (c : Content Elm) :
    (c.map f).locate B'.trait p = c.locate B.trait (p ∘ f) := by
  unfold locate map
  simp only [hom.recentElm, search_map, getElem?_map, Option.any_map]
  rfl

theorem matcher_comp (hom : BindingHom f B B') (n : GenNode) : B'.matchElement n ∘ f = B.matchElement n := by
  funext e
  exact hom.matchElement n e

theorem acceptWhileNot_map (hom : BindingHom f B B') (stop : Elm' → Bool) (n : Nat)
    (c : Content Elm) :
    acceptWhileNot B'.trait B'.movedFrom stop n (c.map f)
      = (acceptWhileNot B.trait B.movedFrom (stop ∘ f) n c).map f := by
  induction n generalizing c with
  | zero => rfl
  | succ n ih =>
    unfold acceptWhileNot
    rw [current_map]
    cases c.current with
    | none => rfl
    | some e =>
      show (if stop (f e) then _ else _) = _
      by_cases hstop : stop (f e) = true
      · rw [if_pos hstop]
        show _ = Content.map f (if stop (f e) then _ else _)
        rw [if_pos hstop]
      · rw [if_neg hstop, pos_map, moveIn_map hom, advance_map, ih]
        show _ = Content.map f (if stop (f e) then _ else _)
        rw [if_neg hstop]

end Content

namespace TreeMutator

variable {f : Elm → Elm'} {B : β → CollectionBinding β Elm} {B' : β → CollectionBinding β Elm'}

@[simp] theorem hasSrc_map (f : Elm → Elm') (m : TreeMutator β Elm) : (m.map f).hasSrc = m.hasSrc := by
  induction m with
  | base => rfl
  | childCollection b c par ih => simp only [map, hasSrc, Content.current_map, Option.isSome_map, ih]
  | objectTypeHandler t par ih => exact ih

@[simp] theorem completeScope_map (f : Elm → Elm') (m : TreeMutator β Elm) :
    (m.map f).completeScope = m.completeScope := by
  induction m with
  | base => rfl
  | childCollection b c par ih =>
    simp only [map, completeScope, Content.current_map, Option.isNone_map, ih]
  | objectTypeHandler t par ih => exact ih

theorem init_map (f : Elm → Elm') (m : TreeMutator β Elm) : (m.map f).init = m.init.map f := by
  induction m with
  | base => rfl
  | childCollection b c par ih => simp only [map, init, Content.initMutation_map, ih]
  | objectTypeHandler t par ih => simp only [map, init, ih]

section Delegate

variable {α α' δ δ' : Type} {g : α → α'} {g' : δ → δ'}

/-- The layers of an onion which delegate to the one below. -/
theorem delegate_map {k : α → δ} {k' : α' → δ'} (hk : ∀ a, k' (g a) = g' (k a)) (r : Except TreeDiffError (Option α)) :
    (do return (← mapResult g r).map k') = mapResult g' (do return (← r).map k) := by
  cases r with
  | error e => rfl
  | ok r =>
    cases r with
    | none => rfl
    | some a => exact congrArg (fun d => Except.ok (some d)) (hk a)

/-- The layer which is applicable performs the operation, and otherwise one below. -/
theorem selected_map {r : Except TreeDiffError Bool} {here below : Except TreeDiffError (Option δ)}
    {here' below' : Except TreeDiffError (Option δ')} (hhere : here' = mapResult g' here)
    (hbelow : below' = mapResult g' below) :
    (do if ← r then here' else below') = mapResult g' (do if ← r then here else below) := by
  cases r with
  | error e => rfl
  | ok app =>
    cases app with
    | true => exact hhere
    | false => exact hbelow

end Delegate

/-- The specification of a type is for the type handler. -/
theorem typed_map (f : Elm → Elm') (n : GenNode) (t : String) (par : TreeMutator β Elm)
    (r : Except TreeDiffError (Option (TreeMutator β Elm))) :
    (do
      if n.isNamed && n.isTypeID then return some (objectTypeHandler (← typeOfSpec n) (par.map f))
      else return (← mapResult (map f) r).map (objectTypeHandler t))
    = mapResult (map f) (do
      if n.isNamed && n.isTypeID then return some (objectTypeHandler (← typeOfSpec n) par)
      else return (← r).map (objectTypeHandler t)) := by
  by_cases htype : (n.isNamed && n.isTypeID) = true
  · rw [if_pos htype, if_pos htype]
    cases typeOfSpec n with
    | error e => rfl
    | ok t' => rfl
  · rw [if_neg htype, if_neg htype]
    exact delegate_map (by intro _; rfl) r

section BindingHom

variable (hom : ∀ b, BindingHom f (B b) (B' b))

include hom

theorem injectNew_map (n : GenNode) (m : TreeMutator β Elm) :
    (m.map f).injectNew B' n = mapResult (map f) (m.injectNew B n) := by
  induction m with
  | base => rfl
  | childCollection b c par ih =>
    unfold map injectNew
    rw [(hom b).isApplicable, (hom b).construct, ih]
    refine selected_map ?_ (delegate_map (by intro _; rfl) _)
    cases (B b).construct n with
    | error e => rfl
    | ok e =>
      show Except.ok (some (childCollection b _ _)) = Except.ok (some _)
      rw [Content.inject_map (hom b)]
      rfl
  | objectTypeHandler t par ih =>
    unfold map injectNew
    rw [ih]
    exact typed_map f n t par _

theorem matchSrc_map (n : GenNode)
    (m : TreeMutator β Elm) : (m.map f).matchSrc B' n = m.matchSrc B n := by
  induction m with
  | base => rfl
  | childCollection b c par ih =>
    unfold map matchSrc
    rw [(hom b).isApplicable, ih, Content.current_map, Option.any_map]
    simp only [(hom b).matchElement]
  | objectTypeHandler t par ih => exact ih

theorem skipSrc_map (n : GenNode)
    (m : TreeMutator β Elm) : (m.map f).skipSrc B' n = (m.skipSrc B n).map (map f) := by
  induction m with
  | base => rfl
  | childCollection b c par ih =>
    unfold map skipSrc
    rw [(hom b).isApplicable, ih, Content.current_map]
    cases (B b).isApplicable n with
    | error e => rfl
    | ok app =>
      cases app with
      | true =>
        cases c.current with
        | none => rfl
        | some e => rfl
      | false =>
        cases par.skipSrc B n with
        | error e => rfl
        | ok par' => rfl
  | objectTypeHandler t par ih =>
    unfold map skipSrc
    rw [ih]
    cases par.skipSrc B n with
    | error e => rfl
    | ok par' => rfl

theorem acceptSrc_map (n : GenNode) (m : TreeMutator β Elm) :
    (m.map f).acceptSrc B' n = mapResult (map f) (m.acceptSrc B n) := by
  induction m with
  | base => rfl
  | childCollection b c par ih =>
    unfold map acceptSrc
    rw [(hom b).isApplicable, ih, Content.current_map]
    refine selected_map ?_ (delegate_map (by intro _; rfl) _)
    cases c.current with
    | none => rfl
    | some e =>
      show (if (B' b).matchElement n (f e) = true then _ else _) = mapResult _
        (if (B b).matchElement n e = true then _ else _)
      rw [(hom b).matchElement, Content.moveIn_map (hom b)]
      by_cases hmatch : (B b).matchElement n e = true
      · rw [if_pos hmatch, if_pos hmatch]
        rfl
      · rw [if_neg hmatch, if_neg hmatch]
        rfl
  | objectTypeHandler t par ih =>
    unfold map acceptSrc
    rw [ih]
    exact delegate_map (by intro _; rfl) _

theorem findSrc_map (n : GenNode)
    (m : TreeMutator β Elm) :
    (m.map f).findSrc B' n = mapResult (map f) (m.findSrc B n) := by
  induction m with
  | base => rfl
  | childCollection b c par ih =>
    unfold map findSrc
    rw [(hom b).isApplicable, ih]
    refine selected_map ?_ (delegate_map (by intro _; rfl) _)
    have hsearch : Content.search ((B' b).matchElement n) (c.map f).contentBuffer
        (c.map f).pos = Content.search ((B b).matchElement n) c.contentBuffer c.pos := by
      rw [← Content.matcher_comp (hom b)]
      exact Content.search_map _ _ _
    rw [hsearch]
    cases Content.search ((B b).matchElement n) c.contentBuffer c.pos with
    | none => rfl
    | some i =>
      have hslot : (c.map f).contentBuffer[i]? = c.contentBuffer[i]?.map f :=
        getElem?_map
      dsimp only
      rw [hslot]
      cases c.contentBuffer[i]? with
      | none => rfl
      | some e =>
        dsimp only [Option.map_some]
        rw [Content.moveIn_map (hom b)]
        rfl
  | objectTypeHandler t par ih =>
    unfold map findSrc
    rw [ih]
    exact delegate_map (by intro _; rfl) _

end BindingHom

theorem acceptsAll_map {B : CollectionBinding β Elm} {B' : CollectionBinding β Elm'} (hom : BindingHom f B B')
    (H : RefHash) (n : GenNode) : acceptsAll H B' n = acceptsAll H B n := by
  unfold acceptsAll
  rw [hom.isApplicable]

theorem acceptUntil_map (hom : ∀ b, BindingHom f (B b) (B' b)) (H : RefHash) (n : GenNode) (m : TreeMutator β Elm) :
    (m.map f).acceptUntil B' H n = mapResult (map f) (m.acceptUntil B H n) := by
  induction m with
  | base =>
    show Except.ok _ = Except.ok (Option.map _ _)
    rw [Option.map_if]
    rfl
  | childCollection b c par ih =>
    unfold map acceptUntil
    rw [acceptsAll_map (hom b), (hom b).isApplicable, ih, Content.pending_map,
      Content.acceptWhileNot_map (hom b), Content.acceptWhileNot_map (hom b),
      Content.matcher_comp (hom b)]
    refine selected_map (delegate_map (by intro _; rfl) _) (selected_map ?_ (delegate_map (by intro _; rfl) _))
    generalize c.acceptWhileNot (B b).trait (B b).movedFrom
      ((B b).matchElement n) c.pending = c'
    dsimp only
    rw [Content.current_map]
    cases c'.current with
    | none => rfl
    | some e =>
      dsimp only [Option.map_some]
      rw [(hom b).matchElement, Content.moveIn_map (hom b)]
      by_cases hmatch : (B b).matchElement n e = true
      · rw [if_pos hmatch, if_pos hmatch]
        rfl
      · rw [if_neg hmatch, if_neg hmatch]
        rfl
  | objectTypeHandler t par ih =>
    unfold map acceptUntil
    rw [ih]
    exact delegate_map (by intro _; rfl) _

theorem assignElm_map (hom : ∀ b, BindingHom f (B b) (B' b)) (n : GenNode) (m : TreeMutator β Elm) :
    (m.map f).assignElm B' n = mapResult (map f) (m.assignElm B n) := by
  induction m with
  | base => rfl
  | childCollection b c par ih =>
    unfold map assignElm
    rw [(hom b).isApplicable, ih, Content.locate_map (hom b), Content.matcher_comp (hom b)]
    refine selected_map ?_ (delegate_map (by intro _; rfl) _)
    cases c.locate (B b).trait ((B b).matchElement n) with
    | none => rfl
    | some i =>
      have hslot : (c.map f).collection[i]? = c.collection[i]?.map f :=
        getElem?_map
      dsimp only
      rw [hslot]
      cases c.collection[i]? with
      | none => rfl
      | some e =>
        dsimp only [Option.map_some]
        rw [(hom b).assign]
        cases (B b).assign e n with
        | error err => rfl
        | ok r =>
          cases r with
          | none => rfl
          | some e' =>
            have hset : (c.map f).collection.set i (f e') = (c.collection.set i e').map f := map_set.symm
            show Except.ok (some (childCollection b
              { c.map f with collection := (c.map f).collection.set i (f e') } _)) = _
            rw [hset]
            rfl
  | objectTypeHandler t par ih =>
    unfold map assignElm
    rw [ih]
    exact typed_map f n t par _

/-- A mutator opened on an element, together with the place of the latter, with each element
mapped. -/
def mapOpened (f : Elm → Elm') (p : Locus × TreeMutator β Elm) : Locus × TreeMutator β Elm' :=
  (p.1, p.2.map f)

theorem mutateChild_map (hom : ∀ b, BindingHom f (B b) (B' b)) (n : GenNode) (m : TreeMutator β Elm) :
    (m.map f).mutateChild B' n = mapResult (mapOpened f) (m.mutateChild B n) := by
  induction m with
  | base => rfl
  | childCollection b c par ih =>
    unfold map mutateChild
    rw [(hom b).isApplicable, ih, Content.locate_map (hom b), Content.matcher_comp (hom b)]
    refine selected_map ?_ (delegate_map (by intro _; rfl) _)
    cases c.locate (B b).trait ((B b).matchElement n) with
    | none => rfl
    | some i =>
      have hslot : (c.map f).collection[i]? = c.collection[i]?.map f :=
        getElem?_map
      dsimp only
      rw [hslot]
      cases c.collection[i]? with
      | none => rfl
      | some e =>
        dsimp only [Option.map_some]
        rw [(hom b).openSub]
        cases (B b).openSub e n.idi with
        | error err => rfl
        | ok r =>
          cases r with
          | none => rfl
          | some sub => rfl
  | objectTypeHandler t par ih =>
    unfold map mutateChild
    rw [ih]
    exact delegate_map (by intro _; rfl) _

theorem writeBack_map (hom : ∀ b, BindingHom f (B b) (B' b)) (sub : TreeMutator β Elm) (elm : Nat) (k : Nat)
    (m : TreeMutator β Elm) : writeBack B' (sub.map f) elm k (m.map f) = (writeBack B sub elm k m).map f := by
  induction m generalizing k with
  | base => cases k <;> rfl
  | childCollection b c par ih =>
    cases k with
    | zero =>
      have hmodify : (c.map f).collection.modify elm (fun e => (B' b).writeBack e (sub.map f))
          = (c.collection.modify elm fun e => (B b).writeBack e sub).map f := by
        apply ext_getElem?
        intro i
        show ((c.collection.map f).modify elm _)[i]? = _
        rw [getElem?_modify, getElem?_map, getElem?_map, getElem?_modify]
        cases c.collection[i]? with
        | none => rfl
        | some e =>
          show some (if elm = i then (B' b).writeBack (f e) (sub.map f) else f e)
            = some (f (if elm = i then (B b).writeBack e sub else e))
          rw [(hom b).writeBack, apply_ite f]
      show childCollection b { c.map f with collection := _ } _ = _
      rw [hmodify]
      rfl
    | succ k => exact congrArg (childCollection b (c.map f)) (ih k)
  | objectTypeHandler t par ih =>
    cases k with
    | zero => rfl
    | succ k => exact congrArg (objectTypeHandler t) (ih k)

end TreeMutator

namespace TreeDiffScopes

variable {f : Elm → Elm'} {B : β → CollectionBinding β Elm} {B' : β → CollectionBinding β Elm'}

theorem orFail_map {α α' : Type} (g : α → α') (err : TreeDiffError)
    (r : Except TreeDiffError (Option α)) :
    (do orFail err (← mapResult g r)) = (do orFail err (← r)).map g := by
  cases r with
  | error e => rfl
  | ok r =>
    cases r with
    | none => rfl
    | some a => rfl

/-- A verb applied to mapped elements does what it does on the plain ones. -/
theorem applyTo_map (hom : ∀ b, BindingHom f (B b) (B' b)) (H : RefHash) (m : TreeMutator β Elm)
    (v : TreeDiffStep) : applyTo B' H (m.map f) v = (applyTo B H m v).map (·.map f) := by
  cases v with
  | ins n =>
    simp only [applyTo]
    rw [TreeMutator.injectNew_map hom]
    exact orFail_map _ _ _
  | del n =>
    simp only [applyTo]
    rw [TreeMutator.hasSrc_map, TreeMutator.matchSrc_map hom, TreeMutator.skipSrc_map hom]
    cases m.hasSrc with
    | false => rfl
    | true =>
      cases m.matchSrc B n with
      | error e => rfl
      | ok found =>
        cases found with
        | false => rfl
        | true => rfl
  | pick n =>
    simp only [applyTo]
    rw [TreeMutator.acceptSrc_map hom]
    exact orFail_map _ _ _
  | find n =>
    simp only [applyTo]
    rw [TreeMutator.hasSrc_map, TreeMutator.findSrc_map hom]
    cases m.hasSrc with
    | false => rfl
    | true => exact orFail_map _ _ _
  | skip n =>
    simp only [applyTo]
    rw [TreeMutator.hasSrc_map, TreeMutator.skipSrc_map hom]
    cases m.hasSrc with
    | false => rfl
    | true => rfl
  | after n =>
    simp only [applyTo]
    rw [TreeMutator.acceptUntil_map hom]
    exact orFail_map _ _ _
  | set n =>
    simp only [applyTo]
    rw [TreeMutator.assignElm_map hom]
    exact orFail_map _ _ _
  | «mut» n => rfl
  | emu n => rfl

theorem inScope_map (s : TreeDiffScopes β Elm) (r : Except TreeDiffError (TreeMutator β Elm)) :
    (do return { s.map f with current := ← r.map (·.map f) })
      = (do return { s with current := ← r } : Except TreeDiffError _).map
          (TreeDiffScopes.map f) := by
  cases r with
  | error e => rfl
  | ok m => rfl

/-- One step on mapped elements does what it does on the plain ones. -/
theorem step_map (hom : ∀ b, BindingHom f (B b) (B' b)) (H : RefHash) (s : TreeDiffScopes β Elm)
    (v : TreeDiffStep) : step B' H (s.map f) v = (step B H s v).map (TreeDiffScopes.map f) := by
  cases v with
  | «mut» n =>
    show (do
      let r ← orFail (.mismatch "enter nested scope" n)
        (← (s.current.map f).mutateChild B' n)
      return (⟨r.2, (s.current.map f, r.1) :: (s.map f).outer⟩ : TreeDiffScopes β Elm')) = _
    rw [TreeMutator.mutateChild_map hom]
    simp only [step]
    cases s.current.mutateChild B n with
    | error e => rfl
    | ok r =>
      cases r with
      | none => rfl
      | some p => rfl
  | emu n =>
    simp only [step]
    show (if (s.current.map f).completeScope then _ else _) = _
    rw [TreeMutator.completeScope_map]
    cases s.current.completeScope with
    | false => rfl
    | true =>
      obtain ⟨current, outer⟩ := s
      cases outer with
      | nil => rfl
      | cons p outer =>
        exact congrArg (fun par => Except.ok (TreeDiffScopes.mk par _))
          (TreeMutator.writeBack_map hom current p.2.elm p.2.layer p.1)
  | ins n => simp only [step]; rw [← inScope_map, ← applyTo_map hom]; rfl
  | del n => simp only [step]; rw [← inScope_map, ← applyTo_map hom]; rfl
  | pick n => simp only [step]; rw [← inScope_map, ← applyTo_map hom]; rfl
  | find n => simp only [step]; rw [← inScope_map, ← applyTo_map hom]; rfl
  | skip n => simp only [step]; rw [← inScope_map, ← applyTo_map hom]; rfl
  | after n => simp only [step]; rw [← inScope_map, ← applyTo_map hom]; rfl
  | set n => simp only [step]; rw [← inScope_map, ← applyTo_map hom]; rfl

/-- A diff applied to mapped elements takes the same course as on the plain ones. -/
theorem steps_map (hom : ∀ b, BindingHom f (B b) (B' b)) (H : RefHash) (s : TreeDiffScopes β Elm)
    (diff : List TreeDiffStep) : steps B' H (s.map f) diff = (steps B H s diff).map (TreeDiffScopes.map f) := by
  induction diff generalizing s with
  | nil => rfl
  | cons v diff ih =>
    rw [steps_cons, steps_cons, step_map hom]
    cases step B H s v with
    | error e => rfl
    | ok s' => exact ih s'

theorem target_map (hom : ∀ b, BindingHom f (B b) (B' b)) (s : TreeDiffScopes β Elm) :
    (s.map f).target B' = (s.target B).map f := by
  obtain ⟨current, outer⟩ := s
  induction outer generalizing current with
  | nil => rfl
  | cons p outer ih =>
    have hback := TreeMutator.writeBack_map hom current p.2.elm p.2.layer p.1
    show target B' ⟨TreeMutator.writeBack B' (current.map f) p.2.elm p.2.layer (p.1.map f), _⟩ = _
    rw [hback]
    exact ih (TreeMutator.writeBack B current p.2.elm p.2.layer p.1)

/-- Consuming a diff on mapped elements yields the mapped result, or the same error. -/
theorem consume_map (hom : ∀ b, BindingHom f (B b) (B' b)) (H : RefHash) (m : TreeMutator β Elm)
    (diff : List TreeDiffStep) : consume B' H (m.map f) diff = (consume B H m diff).map (·.map f) := by
  have hinit : initDiffApplication (m.map f) = (initDiffApplication m).map f := by
    show TreeDiffScopes.mk (m.map f).init [] = TreeDiffScopes.mk (m.init.map f) []
    rw [TreeMutator.init_map]
  unfold consume
  rw [hinit, steps_map hom]
  cases steps B H (initDiffApplication m) diff with
  | error e => rfl
  | ok s =>
    show completeDiffApplication B' (s.map f) = (completeDiffApplication B s).map _
    unfold completeDiffApplication
    rw [target_map hom]
    show (if (s.current.map f).completeScope then _ else _) = _
    rw [TreeMutator.completeScope_map]
    cases s.current.completeScope with
    | false => rfl
    | true => rfl

end TreeDiffScopes

/-! ## Traced elements -/

/-- Where an element comes from. -/
inductive Source
  /-- Built from the argument of a verb. -/
  | inserted
  /-- An element the collection held when its scope was opened, with its number. -/
  | original (slot : Nat)
  /-- What was left of an element after moving from it. -/
  | leftover
  deriving DecidableEq, Repr

/-- An element with its source. -/
structure Traced (Elm : Type) where
  src : Source
  elm : Elm

/-- The elements of a list as originals, numbered from `start` on. -/
def traceFrom (start : Nat) (xs : List Elm) : List (Traced Elm) :=
  (xs.zipIdx start).map fun p => ⟨.original p.2, p.1⟩

/-- The content of a collection, with all elements numbered as originals. -/
def Content.trace (c : Content Elm) : Content (Traced Elm) :=
  ⟨traceFrom 0 c.collection, traceFrom c.collection.length c.contentBuffer, c.pos⟩

/-- A mutator with all elements of each collection numbered as originals. -/
def TreeMutator.trace : TreeMutator β Elm → TreeMutator β (Traced Elm)
  | base => base
  | childCollection b c par => childCollection b c.trace par.trace
  | objectTypeHandler t par => objectTypeHandler t par.trace

/-- **The same closures on traced elements.** Sources are recorded where an element is built or
moved from, and where a nested scope is opened; they are never looked at. -/
def CollectionBinding.traced (B : CollectionBinding β Elm) : CollectionBinding β (Traced Elm) where
  trait :=
    { insertPos := fun xs e => B.trait.insertPos (xs.map Traced.elm) e.elm
      recentElm := fun xs => B.trait.recentElm (xs.map Traced.elm) }
  matchElement n e := B.matchElement n e.elm
  construct n := (B.construct n).map (Traced.mk .inserted)
  isApplicable n := B.isApplicable n
  assign e n := mapResult (Traced.mk e.src) (B.assign e.elm n)
  openSub e i := mapResult TreeMutator.trace (B.openSub e.elm i)
  writeBack e m := ⟨e.src, B.writeBack e.elm (m.map Traced.elm)⟩
  movedFrom e := ⟨.leftover, B.movedFrom e.elm⟩

@[simp] theorem map_elm_traceFrom (start : Nat) (xs : List Elm) : (traceFrom start xs).map Traced.elm = xs := by
  induction xs generalizing start with
  | nil => rfl
  | cons x xs ih => exact congrArg (x :: ·) (ih (start + 1))

@[simp] theorem TreeMutator.map_elm_trace (m : TreeMutator β Elm) : m.trace.map Traced.elm = m := by
  induction m with
  | base => rfl
  | childCollection b c par ih =>
    show childCollection b (c.trace.map Traced.elm) (par.trace.map Traced.elm) = _
    have hcontent : c.trace.map Traced.elm = c := by
      show Content.mk ((traceFrom 0 c.collection).map Traced.elm)
        ((traceFrom c.collection.length c.contentBuffer).map Traced.elm) c.pos = c
      rw [map_elm_traceFrom, map_elm_traceFrom]
    rw [ih, hcontent]
  | objectTypeHandler t par ih => exact congrArg (objectTypeHandler t) ih

theorem mapResult_cancel {α α' : Type} {g : α → α'} {g' : α' → α} (hg : ∀ a, g' (g a) = a)
    (r : Except TreeDiffError (Option α)) : r = mapResult g' (mapResult g r) := by
  cases r with
  | error e => rfl
  | ok r =>
    cases r with
    | none => rfl
    | some a => exact congrArg (fun x => Except.ok (some x)) (hg a).symm

/-- Sources are never looked at: dropping them respects the closures. -/
theorem CollectionBinding.tracedHom (B : CollectionBinding β Elm) :
    BindingHom Traced.elm B.traced B where
  insertPos xs e := rfl
  recentElm xs := rfl
  matchElement n e := rfl
  construct n := by
    show _ = ((B.construct n).map (Traced.mk .inserted)).map Traced.elm
    cases B.construct n with
    | error e => rfl
    | ok e => rfl
  isApplicable n := rfl
  assign e n := mapResult_cancel (fun _ => rfl) _
  openSub e i := mapResult_cancel TreeMutator.map_elm_trace _
  writeBack e m := rfl
  movedFrom e := rfl

/-- Consuming a diff is what the traced run does, once the sources are dropped. -/
theorem TreeDiffScopes.consume_eq_traced (B : β → CollectionBinding β Elm) (H : RefHash)
    (target : TreeMutator β Elm) (diff : List TreeDiffStep) :
    consume B H target diff
      = (consume (fun b => (B b).traced) H target.trace diff).map (·.map Traced.elm) := by
  rw [← consume_map fun b => (B b).tracedHom, TreeMutator.map_elm_trace]

end Lumiera.Lib.Diff
