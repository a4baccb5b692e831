import Mathlib.Data.List.Nodup
import Lumiera.Base.Attempt
import Lumiera.Base.Machine

/-! # Links to widgets (`stage/model/w-link.hpp`)

A link refers to a widget it does not own. It registers a callback with the widget, for which the address of
its own pointer field is the key; the callback resets this pointer when the widget is destroyed. Thus the
registration has to follow whenever a link is copied, moved, swapped or assigned, and a registration may
raise an exception. To use a widget or link which does not exist would halt the program. -/

namespace Lumiera.Stage.Model

open Function List

variable {A W : Type} [DecidableEq A] [DecidableEq W]

/-- The links and the widgets. -/
structure Links (A W : Type) where
  /-- `widget_`, for each address where there is a link -/
  widget_ : A → Option (Option W)
  alive : W → Bool
  /-- `sigc::trackable`: the keys of the callbacks which are registered -/
  callbacks : W → List A

namespace Links

def setPointer (a : A) (p : Option (Option W)) (s : Links A W) : Links A W :=
  { s with widget_ := update s.widget_ a p }

/-- `widget_ = attachTo (target)`, where the registration may raise. -/
def attachTo (raises : Bool) (a : A) (target : W) (s : Links A W) : Attempt (Links A W) Unit :=
  if !s.alive target then .halted
  else if raises then .raised s
  else .ok () <| setPointer a (some (some target))
    { s with callbacks := update s.callbacks target (a :: s.callbacks target) }

def clear (a : A) (s : Links A W) : Attempt (Links A W) Unit :=
  match s.widget_ a with
  | none => .halted
  | some none => .ok () s
  | some (some w) =>
    if !s.alive w then .halted
    else .ok () <| setPointer a (some none)
      { s with callbacks := update s.callbacks w ((s.callbacks w).erase a) }

/-- `WLink()` and `WLink (target)` -/
def construct (raises : Bool) (a : A) : Option W → Links A W → Attempt (Links A W) Unit
  | none, s => .ok () (s.setPointer a (some none))
  | some target, s => s.attachTo raises a target

/-- `WLink (WLink const& r)` -/
def copy (raises : Bool) (a r : A) (s : Links A W) : Attempt (Links A W) Unit :=
  match s.widget_ r with
  | none => .halted
  | some p => s.construct raises a p

/-- `WLink (WLink && rr)` -/
def move (raises : Bool) (a rr : A) (s : Links A W) : Attempt (Links A W) Unit :=
  (s.copy raises a rr).bind fun _ s => s.clear rr

/-- `~WLink()` -/
def destroy (a : A) (s : Links A W) : Attempt (Links A W) Unit :=
  (s.clear a).bind fun _ s => .ok () (s.setPointer a none)

/-- `if (target) widget_ = attachTo (*target)` -/
def attachAny (raises : Bool) (a : A) : Option W → Links A W → Attempt (Links A W) Unit
  | none, s => .ok () s
  | some target, s => s.attachTo raises a target

def swap (raises raises' : Bool) (l r : A) (s : Links A W) : Attempt (Links A W) Unit :=
  match s.widget_ l, s.widget_ r with
  | some tl, some tr =>
    if tl = tr then .ok () s
    else (s.clear r).bind fun _ s => (s.clear l).bind fun _ s =>
      (s.attachAny raises l tr).bind fun _ s => s.attachAny raises' r tl
  | _, _ => .halted

/-- A local link is destroyed at the end, also when an exception is raised. -/
def unwind (a : A) : Attempt (Links A W) Unit → Attempt (Links A W) Unit
  | .ok _ s => s.destroy a
  | .raised s => (s.destroy a).bind fun _ s => .raised s
  | .halted => .halted

/-- `operator= (WLink other)`, where the parameter is either copied or moved from `r`. -/
def assign (moved raises raises' raises'' : Bool) (l r other : A) (s : Links A W) : Attempt (Links A W) Unit :=
  (if moved then s.move raises other r else s.copy raises other r).bind fun _ s =>
    unwind other (s.swap raises' raises'' l other)

def connect (raises : Bool) (a : A) (otherTarget : W) (s : Links A W) : Attempt (Links A W) Unit :=
  if s.widget_ a = some (some otherTarget) then .ok () s
  else (s.clear a).bind fun _ s => s.attachTo raises a otherTarget

/-- The callbacks are invoked one by one, and each of them requires that the link is attached. -/
def notify : List A → Links A W → Attempt (Links A W) Unit
  | [], s => .ok () s
  | a :: keys, s =>
    match s.widget_ a with
    | some (some _) => notify keys (s.setPointer a (some none))
    | _ => .halted

/-- `~trackable()` -/
def destroyWidget (w : W) (s : Links A W) : Attempt (Links A W) Unit :=
  (notify (s.callbacks w) s).bind fun _ s =>
    .ok () { s with alive := update s.alive w false, callbacks := update s.callbacks w [] }

/-! ## Runs -/

/-- What can be done with links and widgets, with the registrations which raise. -/
inductive Operation (A W : Type)
  | createWidget (w : W)
  | destroyWidget (w : W)
  | construct (raises : Bool) (a : A) (target : Option W)
  | copy (raises : Bool) (a r : A)
  | move (raises : Bool) (a rr : A)
  | assign (moved raises raises' raises'' : Bool) (l r other : A)
  | swap (raises raises' : Bool) (l r : A)
  | connect (raises : Bool) (a : A) (otherTarget : W)
  | clear (a : A)
  | destroy (a : A)

/-- The operation works on objects which exist, and creates new ones. -/
def Legit (s : Links A W) : Operation A W → Prop
  | .createWidget w => s.alive w = false
  | .destroyWidget w => s.alive w = true
  | .construct _ a target => s.widget_ a = none ∧ ∀ w ∈ target, s.alive w = true
  | .copy _ a r | .move _ a r => s.widget_ a = none ∧ s.widget_ r ≠ none
  | .assign _ _ _ _ l r other => s.widget_ l ≠ none ∧ s.widget_ r ≠ none ∧ s.widget_ other = none
  | .swap _ _ l r => s.widget_ l ≠ none ∧ s.widget_ r ≠ none
  | .connect _ a w => s.widget_ a ≠ none ∧ s.alive w = true
  | .clear a | .destroy a => s.widget_ a ≠ none

def perform (s : Links A W) : Operation A W → Attempt (Links A W) Unit
  | .createWidget w => .ok () { s with alive := update s.alive w true }
  | .destroyWidget w => s.destroyWidget w
  | .construct raises a target => s.construct raises a target
  | .copy raises a r => s.copy raises a r
  | .move raises a rr => s.move raises a rr
  | .assign moved raises raises' raises'' l r other => s.assign moved raises raises' raises'' l r other
  | .swap raises raises' l r => s.swap raises raises' l r
  | .connect raises a w => s.connect raises a w
  | .clear a => s.clear a
  | .destroy a => s.destroy a

/-- **What the operation means for plain pointers**, where a pointer is reset when it was moved from, and
when its target is destroyed. -/
def plain (p : A → Option (Option W)) : Operation A W → A → Option (Option W)
  | .createWidget _ => p
  | .destroyWidget w => fun a => if p a = some (some w) then some none else p a
  | .construct _ a target => update p a (some target)
  | .copy _ a r => update p a (p r)
  | .move _ a rr => update (update p a (p rr)) rr (some none)
  | .assign moved _ _ _ l r _ =>
    if moved && l != r then update (update p l (p r)) r (some none)
    else update p l (p r)
  | .swap _ _ l r => update (update p l (p r)) r (p l)
  | .connect _ a w => update p a (some (some w))
  | .clear a => update p a (some none)
  | .destroy a => update p a none

/-- Neither links nor widgets. -/
def nothing : Links A W where
  widget_ _ := none
  alive _ := false
  callbacks _ := []

variable (A W) in
/-- Sequences of operations, from a state without links and widgets. -/
def machine : Machine (Links A W) (Operation A W) where
  init s := s = nothing
  step s op t := s.Legit op ∧ (s.perform op).state = some t

/-! ## No link is dangling -/

/-- **Each link which refers to a widget is registered there**, once, and nothing else is. -/
structure Sound (s : Links A W) : Prop where
  registered : ∀ a w, s.widget_ a = some (some w) ↔ a ∈ s.callbacks w
  once : ∀ w, (s.callbacks w).Nodup
  exists_of_registered : ∀ a w, a ∈ s.callbacks w → s.alive w = true

variable {s t : Links A W} {a b l r other : A} {w : W} {p : Option W} {raises raises' : Bool}

/-- A link which is empty, or not there. -/
def Free (s : Links A W) (a : A) : Prop := ∀ w, s.widget_ a ≠ some (some w)

variable {q : Option (Option W)}

omit [DecidableEq A] [DecidableEq W] in
theorem free_of_eq (h : s.widget_ a = q) (hq : q = none ∨ q = some none) : s.Free a := by
  rintro w hw
  rcases hq with rfl | rfl <;> cases h.symm.trans hw

/-- The state between the operations, with these pointers. -/
def Reaches (s : Links A W) (pointers : A → Option (Option W)) (t : Links A W) : Prop :=
  t.Sound ∧ t.widget_ = pointers ∧ t.alive = s.alive

/-- The state left by an exception. -/
def Left (s : Links A W) (t : Links A W) : Prop := t.Sound ∧ t.alive = s.alive

section Sound

variable (h : s.Sound)

include h

omit [DecidableEq W] in
theorem Sound.setPointer (ha : s.Free a) (hq : ∀ w, q ≠ some (some w)) : (s.setPointer a q).Sound := by
  refine ⟨fun b w => ?_, h.once, h.exists_of_registered⟩
  change update s.widget_ a q b = some (some w) ↔ b ∈ s.callbacks w
  by_cases hb : b = a
  · subst hb
    rw [update_self]
    exact iff_of_false (hq w) fun hmem => ha w ((h.registered b w).mpr hmem)
  · rw [update_of_ne hb]
    exact h.registered b w

theorem Sound.rewire (hw : s.alive w = true) {keys : List A}
    (hnodup : keys.Nodup) (hothers : ∀ b ≠ a, (b ∈ keys ↔ b ∈ s.callbacks w))
    (hq : ∀ v, q = some (some v) ↔ v = w ∧ a ∈ keys) (ha : ∀ v ≠ w, a ∉ s.callbacks v) :
    (Links.setPointer a q { s with callbacks := update s.callbacks w keys }).Sound := by
  refine ⟨fun b v => ?_, fun v => ?_, fun b v => ?_⟩
  · change update s.widget_ a q b = _ ↔ b ∈ update s.callbacks w keys v
    have hreg := h.registered b v
    by_cases hb : b = a <;> by_cases hv : v = w
    · subst hb hv
      simp [hq]
    · subst hb
      rw [update_self, update_of_ne hv, hq]
      exact iff_of_false (fun hv' => hv hv'.1) (ha v hv)
    · subst hv
      simpa [hb, hothers b hb] using hreg
    · simpa [hb, hv] using hreg
  · change (update s.callbacks w keys v).Nodup
    by_cases hv : v = w
    · subst hv
      simpa using hnodup
    · simpa [hv] using h.once v
  · change b ∈ update s.callbacks w keys v → s.alive v = true
    by_cases hv : v = w
    · subst hv
      exact fun _ => hw
    · simpa [hv] using h.exists_of_registered b v

/-- A registration is made for this link, or an exception leaves all as it was. -/
theorem Sound.attachTo (ha : s.Free a) (hw : s.alive w = true) :
    (s.attachTo raises a w).Sat (fun _ => s.Reaches (update s.widget_ a (some (some w)))) (· = s) := by
  rw [Links.attachTo, hw]
  cases raises with
  | true => rfl
  | false =>
    have hnot : ∀ v, a ∉ s.callbacks v := fun v hv => ha v ((h.registered a v).mpr hv)
    refine ⟨h.rewire hw (nodup_cons.mpr ⟨hnot w, h.once w⟩) (fun b hb => ?_) (fun v => ?_) fun v _ => hnot v,
      rfl, rfl⟩
    · rw [mem_cons, or_iff_right hb]
    · simp [eq_comm]

/-- The registration is removed, and this never fails. -/
theorem Sound.clear (ha : s.widget_ a = some p) :
    (s.clear a).Sat (fun _ => s.Reaches (update s.widget_ a (some none))) (fun _ => False) := by
  cases p with
  | none =>
    rw [Links.clear, ha]
    refine ⟨h, ?_, rfl⟩
    rw [← ha, update_eq_self]
  | some w =>
    have hw := h.exists_of_registered a w ((h.registered a w).mp ha)
    simp only [Links.clear, ha, hw]
    refine ⟨h.rewire hw ((h.once w).erase a) (fun b hb => ?_) (fun v => ?_) fun v hv hmem => ?_, rfl, rfl⟩
    · rw [(h.once w).mem_erase_iff, and_iff_right hb]
    · simp [(h.once w).mem_erase_iff]
    · exact hv (Option.some.inj (Option.some.inj (ha.symm.trans ((h.registered a v).mpr hmem)))).symm

theorem Sound.construct (ha : s.widget_ a = none) (hp : ∀ w ∈ p, s.alive w = true) :
    (s.construct raises a p).Sat (fun _ => s.Reaches (update s.widget_ a (some p))) (· = s) := by
  have hfree : s.Free a := free_of_eq ha (Or.inl rfl)
  cases p with
  | none => exact ⟨h.setPointer hfree nofun, rfl, rfl⟩
  | some w => exact h.attachTo hfree (hp w rfl)

omit [DecidableEq A] [DecidableEq W] in
theorem Sound.alive (hr : s.widget_ r = some p) : ∀ w ∈ p, s.alive w = true := by
  rintro w rfl
  exact h.exists_of_registered r w ((h.registered r w).mp hr)

theorem Sound.copy (ha : s.widget_ a = none) (hr : s.widget_ r = some p) :
    (s.copy raises a r).Sat (fun _ => s.Reaches (update s.widget_ a (some p))) (· = s) := by
  rw [Links.copy, hr]
  exact h.construct ha (h.alive hr)

theorem Sound.move (ha : s.widget_ a = none) (hr : s.widget_ r = some p) :
    (s.move raises a r).Sat
      (fun _ => s.Reaches (update (update s.widget_ a (some p)) r (some none))) (· = s) := by
  have hne : r ≠ a := by
    rintro rfl
    cases ha.symm.trans hr
  refine (h.copy ha hr).bind (fun _ h => h) fun _ t ⟨ht, hpointers, halive⟩ => ?_
  have hr' : t.widget_ r = some p := by rw [hpointers, update_of_ne hne, hr]
  refine (ht.clear hr').mono (fun _ u ⟨hu, hpointers', halive'⟩ => ?_) fun _ h => h.elim
  exact ⟨hu, hpointers ▸ hpointers', halive'.trans halive⟩

theorem Sound.destroy (ha : s.widget_ a = some p) :
    (s.destroy a).Sat (fun _ => s.Reaches (update s.widget_ a none)) (fun _ => False) := by
  refine (h.clear ha).bind (fun _ h => h) fun _ t ⟨ht, hpointers, halive⟩ => ?_
  have hfree : t.Free a := free_of_eq (by rw [hpointers, update_self]) (Or.inr rfl)
  refine ⟨ht.setPointer hfree nofun, ?_, halive⟩
  change update t.widget_ a none = _
  rw [hpointers, update_idem]

theorem Sound.attachAny (ha : s.widget_ a = some none) (hp : ∀ w ∈ p, s.alive w = true) :
    (s.attachAny raises a p).Sat (fun _ => s.Reaches (update s.widget_ a (some p))) (· = s) := by
  cases p with
  | none => exact ⟨h, by rw [← ha, update_eq_self], rfl⟩
  | some w => exact h.attachTo (free_of_eq ha (Or.inr rfl)) (hp w rfl)

end Sound

variable {q : Option W}

/-- The targets are swapped; when a registration fails, links may be left empty. -/
theorem Sound.swap (h : s.Sound) (hl : s.widget_ l = some p) (hr : s.widget_ r = some q) :
    (s.swap raises raises' l r).Sat (fun _ => s.Reaches (update (update s.widget_ l (some q)) r (some p)))
    (fun t => s.Left t ∧ t.widget_ r = some none) := by
  rw [Links.swap, hl, hr]
  dsimp only
  split
  · next heq =>
    refine ⟨h, ?_, rfl⟩
    rw [← heq, ← hl, update_eq_self, hl, heq, ← hr, update_eq_self]
  · next hne =>
    have hlr : l ≠ r := by
      rintro rfl
      exact hne (Option.some.inj (hl.symm.trans hr))
    -- both links are detached first
    refine (h.clear hr).bind (fun _ h => h.elim) fun _ s₁ ⟨h₁, hp₁, ha₁⟩ => ?_
    have hl₁ : s₁.widget_ l = some p := by rw [hp₁, update_of_ne hlr, hl]
    refine (h₁.clear hl₁).bind (fun _ h => h.elim) fun _ s₂ ⟨h₂, hp₂, ha₂⟩ => ?_
    rw [hp₁] at hp₂
    have halive₂ : s₂.alive = s.alive := ha₂.trans ha₁
    have hl₂ : s₂.widget_ l = some none := by rw [hp₂, update_self]
    have hr₂ : s₂.widget_ r = some none := by rw [hp₂, update_of_ne hlr.symm, update_self]
    refine (h₂.attachAny hl₂ fun w hw => halive₂ ▸ h.alive hr w hw).bind ?_ fun _ s₃ ⟨h₃, hp₃, ha₃⟩ => ?_
    · rintro _ rfl
      exact ⟨⟨h₂, halive₂⟩, hr₂⟩
    have halive₃ : s₃.alive = s.alive := ha₃.trans halive₂
    have hr₃ : s₃.widget_ r = some none := by rw [hp₃, update_of_ne hlr.symm, hr₂]
    refine (h₃.attachAny hr₃ fun w hw => halive₃ ▸ h.alive hl w hw).mono ?_ ?_
    · rintro _ t ⟨ht, hp, ha⟩
      refine ⟨ht, ?_, ha.trans halive₃⟩
      rw [hp, hp₃, hp₂, update_idem, update_comm hlr.symm, update_idem,
        update_comm hlr]
    · rintro _ rfl
      exact ⟨⟨h₃, halive₃⟩, hr₃⟩

theorem Sound.unwind_swap (h : s.Sound) (hl : s.widget_ l = some p)
    (ho : s.widget_ other = some q) :
    (unwind other (s.swap raises raises' l other)).Sat
      (fun _ => s.Reaches (update (update s.widget_ l (some q)) other none)) s.Left := by
  have hswap : (s.swap raises raises' l other).Sat _ _ := h.swap hl ho
  generalize s.swap raises raises' l other = o at hswap
  cases o with
  | ok u t =>
    obtain ⟨ht, hp, ha⟩ := hswap
    have ho' : t.widget_ other = some p := by rw [hp, update_self]
    refine (ht.destroy ho').mono (fun _ u ⟨hu, hp', ha'⟩ => ⟨hu, ?_, ha'.trans ha⟩) fun _ h => h.elim
    rw [hp', hp, update_idem]
  | raised t =>
    obtain ⟨⟨ht, ha⟩, ho'⟩ := hswap
    exact (ht.destroy ho').bind (fun _ h => h.elim) fun _ u ⟨hu, _, ha'⟩ => ⟨hu, ha'.trans ha⟩
  | halted => exact hswap

/-- Assignment of a copy, or by a move, which can also be a self-assignment. -/
theorem Sound.assign {moved raises'' : Bool} (h : s.Sound) (hl : s.widget_ l = some p)
    (hr : s.widget_ r = some q) (ho : s.widget_ other = none) :
    (s.assign moved raises raises' raises'' l r other).Sat
      (fun _ => s.Reaches (plain s.widget_ (.assign moved raises raises' raises'' l r other))) s.Left := by
  have hlo : l ≠ other := by
    rintro rfl
    cases ho.symm.trans hl
  have hro : r ≠ other := by
    rintro rfl
    cases ho.symm.trans hr
  have hsame : ∀ t, t = s → s.Left t := by
    rintro t rfl
    exact ⟨h, rfl⟩
  -- at the end the local link is not there, as before
  have hforget : update s.widget_ other none = s.widget_ := by rw [← ho, update_eq_self]
  cases moved with
  | false =>
    refine (h.copy ho hr).bind hsame fun _ t ⟨ht, hp, ha⟩ => ?_
    have hl' : t.widget_ l = some p := by rw [hp, update_of_ne hlo, hl]
    have ho' : t.widget_ other = some q := by rw [hp, update_self]
    refine (ht.unwind_swap hl' ho').mono (fun _ u ⟨hu, hp', ha'⟩ => ⟨hu, ?_, ha'.trans ha⟩)
      fun u ⟨hu, ha'⟩ => ⟨hu, ha'.trans ha⟩
    rw [hp', hp, update_comm hlo.symm, update_idem, update_comm hlo, hforget, ← hr]
    rfl
  | true =>
    refine (h.move ho hr).bind hsame fun _ t ⟨ht, hp, ha⟩ => ?_
    have ho' : t.widget_ other = some q := by rw [hp, update_of_ne hro.symm, update_self]
    have hl' : t.widget_ l = some (if l = r then none else p) := by
      rw [hp]
      split
      · next heq => rw [heq, update_self]
      · next hne => rw [update_of_ne hne, update_of_ne hlo, hl]
    refine (ht.unwind_swap hl' ho').mono (fun _ u ⟨hu, hp', ha'⟩ => ⟨hu, ?_, ha'.trans ha⟩)
      fun u ⟨hu, ha'⟩ => ⟨hu, ha'.trans ha⟩
    rw [hp', hp, ← update_comm hro, update_comm hlo.symm, update_idem,
      update_comm hlo, update_comm hro, hforget, ← hr]
    by_cases heq : l = r
    · subst heq
      simp [plain]
    · rw [update_comm (Ne.symm heq)]
      simp [plain, heq]

theorem Sound.connect (h : s.Sound) (ha : s.widget_ a = some p) (hw : s.alive w = true) :
    (s.connect raises a w).Sat (fun _ => s.Reaches (update s.widget_ a (some (some w)))) s.Left := by
  rw [Links.connect]
  split
  · next heq => exact ⟨h, by rw [← heq, update_eq_self], rfl⟩
  · refine (h.clear ha).bind (fun _ h => h.elim) fun _ t ⟨ht, hp, halive⟩ => ?_
    have hfree : t.Free a := free_of_eq (by rw [hp, update_self]) (Or.inr rfl)
    refine (ht.attachTo hfree (halive ▸ hw)).mono (fun _ u ⟨hu, hp', ha'⟩ => ⟨hu, ?_, ha'.trans halive⟩) ?_
    · rw [hp', hp, update_idem]
    · rintro _ rfl
      exact ⟨ht, halive⟩

omit [DecidableEq W] in
/-- Each callback finds its link attached, and resets it. -/
theorem notify_eq {keys : List A} (hnodup : keys.Nodup) (hkeys : ∀ a ∈ keys, ¬ s.Free a) :
    notify keys s = .ok () { s with widget_ := fun a => if a ∈ keys then some none else s.widget_ a } := by
  induction keys generalizing s with
  | nil => simp [notify]
  | cons a keys ih =>
    obtain ⟨hnot, hnodup⟩ := nodup_cons.mp hnodup
    obtain ⟨w, hw⟩ := not_forall_not.mp (hkeys a mem_cons_self)
    have hrest : ∀ b ∈ keys, ¬ (s.setPointer a (some none)).Free b := fun b hb hfree =>
      hkeys b (mem_cons_of_mem a hb) fun v hv =>
        hfree v ((update_of_ne (ne_of_mem_of_not_mem hb hnot) _ _).trans hv)
    simp only [notify, hw, ih hnodup hrest]
    congr 2
    funext b
    by_cases hb : b = a
    · subst hb
      simp [Links.setPointer]
    · simp [Links.setPointer, hb]

theorem Sound.destroyWidget (h : s.Sound) :
    (s.destroyWidget w).Sat (fun _ t => t.Sound ∧ t.widget_ = plain s.widget_ (.destroyWidget w))
      (fun _ => False) := by
  rw [Links.destroyWidget, notify_eq (h.once w) fun a ha hfree => hfree w ((h.registered a w).mpr ha)]
  refine ⟨⟨fun a v => ?_, fun v => ?_, fun a v => ?_⟩, ?_⟩
  · simp only [← h.registered a w]
    by_cases hv : v = w
    · subst hv
      split
      · simp
      · next ha => simpa using ha
    · rw [update_of_ne hv, ← h.registered a v]
      split
      · next ha => simp [ha, Ne.symm hv]
      · rfl
  · by_cases hv : v = w <;> simp [hv, h.once]
  · by_cases hv : v = w
    · simp [hv]
    · simpa [hv] using h.exists_of_registered a v
  · funext a
    simp only [plain, h.registered]

omit [DecidableEq A] in
theorem Sound.createWidget (h : s.Sound) :
    ({ s with alive := update s.alive w true } : Links A W).Sound := by
  refine ⟨h.registered, h.once, fun a v ha => ?_⟩
  by_cases hv : v = w
  · simp [hv]
  · simpa [hv] using h.exists_of_registered a v ha

/-- One operation: the links stay sound, also when an exception is raised. -/
theorem Sound.perform (h : s.Sound) {op : Operation A W} (hop : s.Legit op) :
    (s.perform op).Sat (fun _ t => t.Sound ∧ t.widget_ = plain s.widget_ op) Sound := by
  have hreaches : ∀ {o : Attempt (Links A W) Unit} {q : A → Option (Option W)} {exc : Links A W → Prop},
      o.Sat (fun _ => s.Reaches q) exc → (∀ t, exc t → t.Sound) → q = plain s.widget_ op →
      o.Sat (fun _ t => t.Sound ∧ t.widget_ = plain s.widget_ op) Sound :=
    fun ho hexc hq => ho.mono (fun _ t ht => ⟨ht.1, ht.2.1.trans hq⟩) hexc
  have hsame : ∀ t, t = s → t.Sound := fun t ht => ht ▸ h
  cases op with
  | createWidget w => exact ⟨h.createWidget, rfl⟩
  | destroyWidget w => exact h.destroyWidget.mono (fun _ t ht => ht) fun _ ht => ht.elim
  | construct raises a target => exact hreaches (h.construct hop.1 hop.2) hsame rfl
  | copy raises a r =>
    obtain ⟨p, hp⟩ := Option.ne_none_iff_exists'.mp hop.2
    exact hreaches (h.copy hop.1 hp) hsame (by rw [← hp]; rfl)
  | move raises a r =>
    obtain ⟨p, hp⟩ := Option.ne_none_iff_exists'.mp hop.2
    exact hreaches (h.move hop.1 hp) hsame (by rw [← hp]; rfl)
  | assign moved raises raises' raises'' l r other =>
    obtain ⟨p, hp⟩ := Option.ne_none_iff_exists'.mp hop.1
    obtain ⟨q, hq⟩ := Option.ne_none_iff_exists'.mp hop.2.1
    exact hreaches (h.assign hp hq hop.2.2) (fun t ht => ht.1) rfl
  | swap raises raises' l r =>
    obtain ⟨p, hp⟩ := Option.ne_none_iff_exists'.mp hop.1
    obtain ⟨q, hq⟩ := Option.ne_none_iff_exists'.mp hop.2
    exact hreaches (h.swap hp hq) (fun t ht => ht.1.1) (by rw [← hp, ← hq]; rfl)
  | connect raises a w =>
    obtain ⟨p, hp⟩ := Option.ne_none_iff_exists'.mp hop.1
    exact hreaches (h.connect hp hop.2) (fun t ht => ht.1) rfl
  | clear a =>
    obtain ⟨p, hp⟩ := Option.ne_none_iff_exists'.mp hop
    exact hreaches (h.clear hp) (fun t ht => ht.elim) rfl
  | destroy a =>
    obtain ⟨p, hp⟩ := Option.ne_none_iff_exists'.mp hop
    exact hreaches (h.destroy hp) (fun t ht => ht.elim) rfl

theorem invariant_sound : (machine A W).Invariant Sound where
  init := by
    rintro _ rfl
    exact ⟨fun a w => by simp [nothing], fun w => nodup_nil, fun a w ha => absurd ha not_mem_nil⟩
  step s op t h := by
    rintro ⟨hop, hstate⟩
    have hsat := h.perform hop
    cases ho : s.perform op with
    | ok u t' =>
      rw [ho] at hstate hsat
      cases hstate
      exact hsat.1
    | raised t' =>
      rw [ho] at hstate hsat
      cases hstate
      exact hsat
    | halted => cases ho ▸ hstate

/-- **Links never dangle**: a link is empty, or refers to a widget which is there and holds one registration
for it, and there are no other registrations. No operation fails, except that a registration raises, and
otherwise it does what it does for plain pointers. -/
theorem never_dangling (hs : (machine A W).Reachable s) :
    (∀ a p, s.widget_ a = some p →
      p = none ∨ ∃ w, p = some w ∧ s.alive w = true ∧ (s.callbacks w).count a = 1) ∧
    (∀ w, ∀ a ∈ s.callbacks w, s.widget_ a = some (some w)) ∧
    ∀ op, s.Legit op → (s.perform op).Sat (fun _ t => t.widget_ = plain s.widget_ op) fun _ => True := by
  have h : s.Sound := invariant_sound.reachable hs
  refine ⟨fun a p ha => ?_, fun w a hmem => (h.registered a w).mpr hmem, fun op hop => ?_⟩
  · cases p with
    | none => exact Or.inl rfl
    | some w =>
      have hmem := (h.registered a w).mp ha
      exact Or.inr ⟨w, rfl, h.exists_of_registered a w hmem, count_eq_one_of_mem (h.once w) hmem⟩
  · exact (h.perform hop).mono (fun _ t ht => ht.2) fun _ _ => trivial

/-- Links to two widgets are swapped, where the second registration raises. -/
theorem never_dangling_swap : ∃ s : Links (Fin 2) (Fin 2), s.widget_ 0 = some (some 1) ∧ s.widget_ 1 = some none ∧
    s.callbacks 0 = [] ∧ ∀ w, ∀ a ∈ s.callbacks w, s.widget_ a = some (some w) := by
  have hrun : (machine (Fin 2) (Fin 2)).Run nothing [.createWidget 0, .createWidget 1, .construct false 0 (some 0),
      .construct false 1 (some 1), .swap false true 0 1] _ :=
    .cons ⟨rfl, rfl⟩ <| .cons ⟨rfl, rfl⟩ <| .cons ⟨⟨rfl, by rintro _ ⟨⟩; rfl⟩, rfl⟩ <|
      .cons ⟨⟨rfl, by rintro _ ⟨⟩; rfl⟩, rfl⟩ <| .cons ⟨⟨nofun, nofun⟩, rfl⟩ <| .nil _
  exact ⟨_, rfl, rfl, rfl, (never_dangling ⟨nothing, _, rfl, hrun⟩).2.1⟩

end Links

end Lumiera.Stage.Model
