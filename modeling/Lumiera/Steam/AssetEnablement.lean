import Mathlib.Order.Filter.AtTopBot.Basic
import Lumiera.Steam.AssetRemoval

/-! # Enabling and disabling assets (`steam/asset.cpp`)

An asset carries a flag whether it is enabled, and it is active when all the assets it depends on are
active, too. Changing the flag is propagated depth-first to the dependants, where it stops at any
dependant which is in the desired state already, or which still has a parent not active.

Both recursions are limited by a depth; the statements are about any depth which is large enough. -/

namespace Lumiera.Steam

universe u

open Relation Filter

/-- `util::and_all`, which stops at the first element failing the predicate -/
def andAll {α : Type u} (predicate : α → Option Bool) : List α → Option Bool
  | [] => some true
  | elm :: rest =>
    match predicate elm with
    | none => none
    | some false => some false
    | some true => andAll predicate rest

namespace DB

variable {ID : Type u} (db : DB ID)

/-- `Asset::isActive`; the flags of all the assets are given. -/
def isActive (enabled : ID → Bool) : Nat → ID → Option Bool
  | 0, _ => none
  | fuel + 1, id =>
    if enabled id then andAll (isActive enabled fuel) (db.assets id).parents else some false

/-- `all_parents_enabled` -/
def allParentsEnabled (enabled : ID → Bool) (fuel : Nat) (parents : List ID) : Option Bool :=
  andAll (db.isActive enabled fuel) parents

variable [DecidableEq ID]

/-- **Change the enablement status** (`Asset::enable`): the value returned, and the flags thereafter. -/
def enable : Nat → ID → Bool → (ID → Bool) → Option (Bool × (ID → Bool))
  | 0, _, _, _ => none
  | fuel + 1, id, on, enabled =>
    if on = enabled id then some (true, enabled)
    else
      match if on then db.allParentsEnabled enabled fuel (db.assets id).parents else some true with
      | none => none
      | some false => some (false, enabled)
      | some true =>
        -- can indeed do the toggle: `propagate_down` is invoked for each of the dependants
        ((db.assets id).dependants.foldlM
          (fun enabled child => (enable fuel child on enabled).map Prod.snd)
          (Function.update enabled id on)).map fun enabled => (true, enabled)

/-! ## What the flags mean -/

/-- The asset and all its transitive parents are enabled. -/
def Active (enabled : ID → Bool) (a : ID) : Prop := ∀ x, db.Closure x a → enabled x = true

/-- An asset is enabled only together with all its parents. -/
def UpClosed (enabled : ID → Bool) : Prop := ∀ p c, db.DependsOn p c → enabled c = true → enabled p = true

/-- All parents of the asset are enabled. -/
def ParentsOn (enabled : ID → Bool) (a : ID) : Prop := ∀ p, db.DependsOn p a → enabled p = true

/-- **A call returns** this value, with these flags thereafter. -/
def Returns (a : ID) (on : Bool) (enabled : ID → Bool) (result : Bool) (enabled' : ID → Bool) : Prop :=
  ∃ n, ∀ fuel ≥ n, db.enable fuel a on enabled = some (result, enabled')

/-- **The flags after a sequence of calls**, which starts with all assets enabled. -/
inductive Reached : (ID → Bool) → Prop
  | established {enabled : ID → Bool} : (∀ a ∈ db.registered, enabled a = true) → Reached enabled
  | call {enabled enabled' : ID → Bool} {a : ID} {on result : Bool} :
    Reached enabled → a ∈ db.registered → db.Returns a on enabled result enabled' → Reached enabled'

/-- **What enabling an asset does**, or switching it off: it is refused for an asset which is off while some
parent is not active; switching off disables the asset and all its transitive dependants; an asset which is
on stays that way; and otherwise exactly those dependants are enabled whose parents are then all active. -/
structure Switched (a : ID) (on : Bool) (enabled : ID → Bool) (result : Bool) (enabled' : ID → Bool) : Prop where
  refused : result = false ↔
    on = true ∧ enabled a = false ∧ ∃ p ∈ (db.assets a).parents, ¬ db.Active enabled p
  unchanged : result = false → enabled' = enabled
  off : on = false → ∀ x, (db.Closure a x → enabled' x = false) ∧ (¬ db.Closure a x → enabled' x = enabled x)
  stays : on = true → enabled a = true → enabled' = enabled
  on : on = true → enabled a = false → result = true → enabled' a = true ∧
    ∀ x, (¬ db.Closure a x → enabled' x = enabled x) ∧ (db.Closure a x → x ≠ a →
      (enabled' x = true ↔ ∀ p ∈ (db.assets x).parents, db.Active enabled' p))

end DB

/-! ## Evaluation with any depth which is large enough -/

theorem eventually_of_succ {P : Nat → Prop} (h : ∀ᶠ fuel in atTop, P (fuel + 1)) : ∀ᶠ fuel in atTop, P fuel := by
  obtain ⟨n, hn⟩ := eventually_atTop.mp h
  refine eventually_atTop.mpr ⟨n + 1, fun fuel hfuel => ?_⟩
  obtain ⟨depth, rfl⟩ := Nat.exists_eq_add_of_le' (show 1 ≤ fuel by omega)
  exact hn depth (by omega)

theorem eventually_andAll {α : Type u} {predicate : Nat → α → Option Bool} {holds : α → Bool} {xs : List α}
    (h : ∀ x ∈ xs, ∀ᶠ fuel in atTop, predicate fuel x = some (holds x)) :
    ∀ᶠ fuel in atTop, andAll (predicate fuel) xs = some (xs.all holds) := by
  induction xs with
  | nil => exact Eventually.of_forall fun _ => rfl
  | cons x xs ih =>
    have hrest := ih fun y hy => h y (List.mem_cons_of_mem x hy)
    filter_upwards [h x List.mem_cons_self, hrest] with fuel hx hxs
    rw [andAll, hx, List.all_cons]
    cases holds x with
    | false => rfl
    | true => exact hxs

namespace DB

variable {ID : Type u} {db : DB ID} {enabled enabled' enabled₁ : ID → Bool} {a c p : ID}

/-! ## Active assets -/

theorem IsDAG.wellFounded_dependsOn (h : db.IsDAG) : WellFounded db.DependsOn := by
  refine wellFounded_of_acyclic (s := db.registered) ?_ h.acyclic
  intro p c hdep
  exact ⟨hdep.1, h.dependants p hdep.1 c hdep.2⟩

theorem IsDAG.dependsOn_iff (h : db.IsDAG) (hc : c ∈ db.registered) :
    db.DependsOn p c ↔ p ∈ (db.assets c).parents := by
  constructor
  · intro hdep
    exact (h.linked p hdep.1 c hc).mp hdep.2
  · intro hp
    have hreg := h.parents c hc p hp
    exact ⟨hreg, (h.linked p hreg c hc).mpr hp⟩

theorem IsDAG.active_iff (h : db.IsDAG) (ha : a ∈ db.registered) :
    db.Active enabled a ↔ enabled a = true ∧ ∀ p ∈ (db.assets a).parents, db.Active enabled p := by
  constructor
  · intro hactive
    refine ⟨hactive a .refl, fun p hp x hx => hactive x (hx.tail ?_)⟩
    exact (h.dependsOn_iff ha).mpr hp
  · rintro ⟨hself, hparents⟩ x hx
    rcases ReflTransGen.cases_tail hx with rfl | ⟨p, hxp, hdep⟩
    · exact hself
    · exact hparents p ((h.dependsOn_iff ha).mp hdep) x hxp

open Classical in
/-- The test for being active, in whatever way the flags are set. -/
theorem IsDAG.eventually_isActive (h : db.IsDAG) (enabled : ID → Bool) (ha : a ∈ db.registered) :
    ∀ᶠ fuel in atTop, db.isActive enabled fuel a = some (decide (db.Active enabled a)) := by
  -- the induction is from the assets depended upon to those depending on them
  induction a using h.wellFounded_dependsOn.induction with
  | _ a ih =>
    have hparents : ∀ p ∈ (db.assets a).parents, ∀ᶠ fuel in atTop,
        db.isActive enabled fuel p = some (decide (db.Active enabled p)) := by
      intro p hp
      exact ih p ((h.dependsOn_iff ha).mpr hp) (h.parents a ha p hp)
    apply eventually_of_succ
    filter_upwards [eventually_andAll hparents] with fuel hall
    have hiff : db.Active enabled a ↔ _ := h.active_iff ha
    rw [isActive, hall]
    cases hself : enabled a with
    | false =>
      have hnot : ¬ db.Active enabled a := fun hactive => by
        rw [(hiff.mp hactive).1] at hself
        cases hself
      simp [hnot]
    | true =>
      refine congrArg some (Bool.eq_iff_iff.mpr ?_)
      simp [hiff, hself]

theorem UpClosed.of_closure (h : db.UpClosed enabled) (hclosure : db.Closure p c) (hc : enabled c = true) :
    enabled p = true := by
  induction hclosure using ReflTransGen.head_induction_on with
  | refl => exact hc
  | head hdep _ ih => exact h _ _ hdep ih

/-- Provided that, **exactly the assets enabled are active**. -/
theorem UpClosed.active_iff (h : db.UpClosed enabled) : db.Active enabled a ↔ enabled a = true :=
  ⟨fun hactive => hactive a .refl, fun ha _ hclosure => h.of_closure hclosure ha⟩

theorem UpClosed.parentsOn (h : db.UpClosed enabled) (ha : enabled a = true) : db.ParentsOn enabled a :=
  fun p hdep => h p a hdep ha


theorem IsDAG.parentsOn_iff (h : db.IsDAG) (hup : db.UpClosed enabled) (ha : a ∈ db.registered) :
    db.ParentsOn enabled a ↔ ∀ p ∈ (db.assets a).parents, db.Active enabled p := by
  constructor
  · intro hon p hp
    exact hup.active_iff.mpr (hon p ((h.dependsOn_iff ha).mpr hp))
  · intro hactive p hdep
    exact hup.active_iff.mp (hactive p ((h.dependsOn_iff ha).mp hdep))

/-! ## Switching off -/

open Classical in
/-- The flags where these assets and all their transitive dependants are off. -/
noncomputable def withoutBelow (db : DB ID) (roots : List ID) (enabled : ID → Bool) : ID → Bool :=
  fun x => if ∃ root ∈ roots, db.Closure root x then false else enabled x

/-- Below this asset, whatever depends on an asset which is off is off as well. -/
def OffBelow (db : DB ID) (a : ID) (enabled : ID → Bool) : Prop :=
  ∀ x y, db.Closure a x → db.Closure x y → enabled x = false → enabled y = false

variable {roots : List ID}

theorem withoutBelow_of_closure (hc : c ∈ roots) (hclosure : db.Closure c a) :
    db.withoutBelow roots enabled a = false := if_pos ⟨c, hc, hclosure⟩

theorem withoutBelow_of_not (hnot : ∀ root ∈ roots, ¬ db.Closure root a) :
    db.withoutBelow roots enabled a = enabled a :=
  if_neg fun ⟨root, hroot, hclosure⟩ => hnot root hroot hclosure

theorem OffBelow.withoutBelow (h : db.OffBelow a enabled) (roots : List ID) :
    db.OffBelow a (db.withoutBelow roots enabled) := by
  intro x y hx hxy hoff
  by_cases hroot : ∃ root ∈ roots, db.Closure root x
  · obtain ⟨root, hmem, hclosure⟩ := hroot
    exact withoutBelow_of_closure hmem (hclosure.trans hxy)
  · by_cases hroot' : ∃ root ∈ roots, db.Closure root y
    · exact if_pos hroot'
    · unfold DB.withoutBelow at hoff ⊢
      rw [if_neg hroot] at hoff
      rw [if_neg hroot']
      exact h x y hx hxy hoff

theorem withoutBelow_cons :
    db.withoutBelow roots (db.withoutBelow [c] enabled) = db.withoutBelow (c :: roots) enabled := by
  funext x
  by_cases hrest : ∃ root ∈ roots, db.Closure root x
  · obtain ⟨root, hroot, hclosure⟩ := hrest
    rw [withoutBelow_of_closure hroot hclosure,
      withoutBelow_of_closure (List.mem_cons_of_mem c hroot) hclosure]
  · by_cases hc : db.Closure c x
    · unfold withoutBelow
      rw [if_neg hrest, if_pos ⟨c, List.mem_cons_self, hc⟩, if_pos ⟨c, List.mem_cons_self, hc⟩]
    · unfold withoutBelow
      rw [if_neg hrest, if_neg (by simpa using hc), if_neg]
      rintro ⟨root, hroot, hclosure⟩
      rcases List.mem_cons.mp hroot with rfl | hroot
      · exact hc hclosure
      · exact hrest ⟨root, hroot, hclosure⟩

variable [DecidableEq ID]

/-- The propagation to a list of dependants. -/
def propagateDown (db : DB ID) (on : Bool) (fuel : Nat) (enabled : ID → Bool) (children : List ID) :
    Option (ID → Bool) :=
  children.foldlM (fun enabled child => (db.enable fuel child on enabled).map Prod.snd) enabled

variable {on : Bool} {fuel : Nat} {children : List ID}

theorem propagateDown_cons :
    db.propagateDown on fuel enabled (c :: children) =
      ((db.enable fuel c on enabled).map Prod.snd).bind fun enabled =>
        db.propagateDown on fuel enabled children := rfl

theorem enable_same (h : enabled a = on) : db.enable (fuel + 1) a on enabled = some (true, enabled) := by
  rw [enable, if_pos h.symm]

theorem enable_toggle (h : enabled a ≠ on)
    (hcan : on = true → db.allParentsEnabled enabled fuel (db.assets a).parents = some true) :
    db.enable (fuel + 1) a on enabled =
      (db.propagateDown on fuel (Function.update enabled a on) (db.assets a).dependants).map (true, ·) := by
  rw [enable, if_neg (Ne.symm h)]
  cases on with
  | false => rfl
  | true =>
    rw [hcan rfl]
    rfl

theorem enable_refused (h : enabled a = false)
    (hcan : db.allParentsEnabled enabled fuel (db.assets a).parents = some false) :
    db.enable (fuel + 1) a true enabled = some (false, enabled) := by
  rw [enable, if_neg (by simp [h]), if_pos rfl, hcan]

theorem eventually_propagateOff
    (hoff : ∀ child ∈ children, ∀ enabled, db.OffBelow child enabled → ∀ᶠ fuel in atTop,
      db.enable fuel child false enabled = some (true, db.withoutBelow [child] enabled))
    (hbelow : ∀ child ∈ children, db.OffBelow child enabled) :
    ∀ᶠ fuel in atTop, db.propagateDown false fuel enabled children =
      some (db.withoutBelow children enabled) := by
  induction children generalizing enabled with
  | nil =>
    refine Eventually.of_forall fun fuel => ?_
    rfl
  | cons child children ih =>
    have hfirst := hoff child List.mem_cons_self enabled (hbelow child List.mem_cons_self)
    have hrest := ih (fun other hother => hoff other (List.mem_cons_of_mem child hother))
      fun other hother => (hbelow other (List.mem_cons_of_mem child hother)).withoutBelow [child]
    filter_upwards [hfirst, hrest] with fuel hchild hchildren
    rw [propagateDown_cons, hchild, Option.map_some, Option.bind_some, hchildren, withoutBelow_cons]

/-- Switching off disables exactly the asset and its transitive dependants. -/
theorem IsDAG.eventually_off (h : db.IsDAG) (ha : a ∈ db.registered) (hbelow : db.OffBelow a enabled) :
    ∀ᶠ fuel in atTop, db.enable fuel a false enabled = some (true, db.withoutBelow [a] enabled) := by
  induction a using h.wellFounded.induction generalizing enabled with
  | _ a ih =>
    apply eventually_of_succ
    cases hself : enabled a with
    | false =>
      -- all the dependants are off already
      have hsame : db.withoutBelow [a] enabled = enabled := by
        funext x
        by_cases hx : db.Closure a x
        · rw [withoutBelow_of_closure List.mem_cons_self hx, hbelow a x .refl hx hself]
        · exact withoutBelow_of_not fun root hroot => by rwa [List.mem_singleton.mp hroot]
      refine Eventually.of_forall fun fuel => ?_
      rw [hsame, enable_same hself]
    | true =>
      have hdep : ∀ child ∈ (db.assets a).dependants, db.DependsOn a child := fun child hchild => ⟨ha, hchild⟩
      have hbelow' : ∀ child ∈ (db.assets a).dependants,
          db.OffBelow child (Function.update enabled a false) := by
        -- the asset is not below one of its dependants
        intro child hchild x y hx hxy hoff
        have hne : ∀ z, db.Closure child z → z ≠ a := by
          rintro z hz rfl
          exact h.not_closure (hdep child hchild) hz
        rw [Function.update_of_ne (hne x hx)] at hoff
        rw [Function.update_of_ne (hne y (hx.trans hxy))]
        exact hbelow x y (.head (hdep child hchild) hx) hxy hoff
      have hpropagate := eventually_propagateOff (fun child hchild enabled hoff =>
        ih child (hdep child hchild) (h.dependants a ha child hchild) hoff) hbelow'
      have hresult : db.withoutBelow (db.assets a).dependants (Function.update enabled a false) =
          db.withoutBelow [a] enabled := by
        funext x
        by_cases hx : db.Closure a x
        · rw [withoutBelow_of_closure List.mem_cons_self hx]
          rcases closure_iff.mp hx with rfl | ⟨child, hchild, hbelow⟩
          · by_cases hroot : ∃ root ∈ (db.assets x).dependants, db.Closure root x
            · exact if_pos hroot
            · exact (if_neg hroot).trans (Function.update_self ..)
          · exact withoutBelow_of_closure hchild.2 hbelow
        · have hne : x ≠ a := by
            rintro rfl
            exact hx .refl
          rw [withoutBelow_of_not fun root hroot hclosure => hx (.head (hdep root hroot) hclosure),
            withoutBelow_of_not fun root hroot => by rwa [List.mem_singleton.mp hroot],
            Function.update_of_ne hne]
      filter_upwards [hpropagate] with fuel hfuel
      rw [enable_toggle (by simp [hself]) (by simp), hfuel, hresult]
      rfl

/-! ## Switching on -/

/-- **Assets were enabled** at some roots and below, and each of the dependants of any such asset is on when
all its parents are. -/
structure Spread (db : DB ID) (roots : List ID) (enabled enabled' : ID → Bool) : Prop where
  mono : ∀ x, enabled x = true → enabled' x = true
  upClosed : db.UpClosed enabled'
  frame : ∀ x, (∀ root ∈ roots, ¬ db.Closure root x) → enabled' x = enabled x
  filled : ∀ p x, db.DependsOn p x → enabled p = false → enabled' p = true → db.ParentsOn enabled' x →
    enabled' x = true

omit [DecidableEq ID] in
theorem Spread.refl (hup : db.UpClosed enabled) (roots : List ID) : db.Spread roots enabled enabled where
  mono _ hx := hx
  upClosed := hup
  frame _ _ := rfl
  filled p _ _ hoff hon := by rw [hoff] at hon; cases hon

omit [DecidableEq ID] in
theorem Spread.trans (h : db.Spread [c] enabled enabled₁)
    (h' : db.Spread roots enabled₁ enabled') : db.Spread (c :: roots) enabled enabled' where
  mono x hx := h'.mono x (h.mono x hx)
  upClosed := h'.upClosed
  frame x hx := by
    have hfirst : ∀ root ∈ [c], ¬ db.Closure root x := by
      intro root hroot
      rw [List.mem_singleton.mp hroot]
      exact hx c List.mem_cons_self
    rw [h'.frame x fun root hroot => hx root (List.mem_cons_of_mem c hroot), h.frame x hfirst]
  filled p x hdep hoff hon hparents := by
    by_cases hall : db.ParentsOn enabled₁ x
    · exact h'.mono x (h.filled p x hdep hoff (hall p hdep) hall)
    · unfold ParentsOn at hall
      push Not at hall
      obtain ⟨q, hq, hqoff⟩ := hall
      exact h'.filled q x hq (Bool.eq_false_iff.mpr hqoff) (hparents q hq) hparents

/-- **Enabling an asset** settles with this result: the asset is on thereafter exactly if all its parents
were enabled, and this is what is returned. -/
def Enables (db : DB ID) (a : ID) : Prop :=
  ∀ enabled, db.UpClosed enabled → ∃ result enabled',
    (∀ᶠ fuel in atTop, db.enable fuel a true enabled = some (result, enabled')) ∧
    db.Spread [a] enabled enabled' ∧ (result = true ↔ db.ParentsOn enabled a) ∧
    (enabled' a = true ↔ db.ParentsOn enabled a) ∧
    (enabled a = true ∨ result = false → enabled' = enabled)

theorem exists_propagateOn (hchildren : ∀ child ∈ children, db.Enables child)
    (hup : db.UpClosed enabled) :
    ∃ enabled', (∀ᶠ fuel in atTop, db.propagateDown true fuel enabled children = some enabled') ∧
      db.Spread children enabled enabled' ∧
      ∀ child ∈ children, db.ParentsOn enabled' child → enabled' child = true := by
  induction children generalizing enabled with
  | nil => exact ⟨enabled, Eventually.of_forall fun _ => rfl, .refl hup [], nofun⟩
  | cons child children ih =>
    obtain ⟨result, enabled₁, hrun, hspread, -, hself, -⟩ :=
      hchildren child List.mem_cons_self enabled hup
    obtain ⟨enabled', hrun', hspread', hrest⟩ :=
      ih (fun other hother => hchildren other (List.mem_cons_of_mem child hother)) hspread.upClosed
    have htotal := hspread.trans hspread'
    refine ⟨enabled', ?_, htotal, ?_⟩
    · filter_upwards [hrun, hrun'] with fuel hfuel hfuel'
      rw [propagateDown_cons, hfuel]
      exact hfuel'
    · intro other hother hparents
      rcases List.mem_cons.mp hother with rfl | hother
      · by_cases hall : db.ParentsOn enabled other
        · exact hspread'.mono other (hself.mpr hall)
        · -- it was refused for the first time, due to a parent enabled later
          unfold ParentsOn at hall
          push Not at hall
          obtain ⟨p, hdep, hoff⟩ := hall
          exact htotal.filled p other hdep (Bool.eq_false_iff.mpr hoff) (hparents p hdep) hparents
      · exact hrest other hother hparents

omit [DecidableEq ID] in
theorem IsDAG.eventually_allParentsEnabled (h : db.IsDAG) (hup : db.UpClosed enabled)
    (ha : a ∈ db.registered) {can : Bool} (hcan : can = true ↔ db.ParentsOn enabled a) :
    ∀ᶠ fuel in atTop, db.allParentsEnabled enabled fuel (db.assets a).parents = some can := by
  classical
  have hparents : ∀ p ∈ (db.assets a).parents, ∀ᶠ fuel in atTop,
      db.isActive enabled fuel p = some (decide (db.Active enabled p)) :=
    fun p hp => h.eventually_isActive enabled (h.parents a ha p hp)
  filter_upwards [eventually_andAll hparents] with fuel hall
  rw [allParentsEnabled, hall]
  refine congrArg some (Bool.eq_iff_iff.mpr ?_)
  rw [hcan, h.parentsOn_iff hup ha]
  simp

/-- Enabling any asset, by induction from the dependants. -/
theorem IsDAG.enables (h : db.IsDAG) (ha : a ∈ db.registered) : db.Enables a := by
  induction a using h.wellFounded.induction with
  | _ a ih =>
    intro enabled hup
    cases hself : enabled a with
    | true =>
      have hparents := hup.parentsOn hself
      refine ⟨true, enabled, eventually_of_succ (Eventually.of_forall fun fuel => enable_same hself),
        .refl hup [a], ?_, ?_, fun _ => rfl⟩
      · exact iff_of_true rfl hparents
      · exact iff_of_true hself hparents
    | false =>
      by_cases hparents : db.ParentsOn enabled a
      · -- the flag is set; all the assets below are still off
        have hup' : db.UpClosed (Function.update enabled a true) := by
          intro p x hdep hx
          by_cases hpa : p = a
          · rw [hpa, Function.update_self]
          · rw [Function.update_of_ne hpa]
            by_cases hxa : x = a
            · exact hparents p (hxa ▸ hdep)
            · rw [Function.update_of_ne hxa] at hx
              exact hup p x hdep hx
        obtain ⟨enabled', hrun, hspread, hfilled⟩ := exists_propagateOn
          (fun child hchild => ih child ⟨ha, hchild⟩ (h.dependants a ha child hchild)) hup'
        have hon : enabled' a = true := hspread.mono a (Function.update_self ..)
        refine ⟨true, enabled', ?_, ?_, iff_of_true rfl hparents, iff_of_true hon hparents, by simp⟩
        · apply eventually_of_succ
          have hcan := h.eventually_allParentsEnabled hup ha (iff_of_true rfl hparents)
          filter_upwards [hrun, hcan] with fuel hfuel hfuel'
          rw [enable_toggle (by simp [hself]) fun _ => hfuel', hfuel]
          rfl
        · refine ⟨fun x hx => hspread.mono x ?_, hspread.upClosed, fun x hx => ?_, fun p x hdep hoff hp => ?_⟩
          · by_cases hxa : x = a
            · rw [hxa, Function.update_self]
            · rwa [Function.update_of_ne hxa]
          · have hnot := hx a List.mem_cons_self
            have hxa : x ≠ a := by
              rintro rfl
              exact hnot .refl
            rw [hspread.frame x fun child hchild hclosure => hnot (.head ⟨ha, hchild⟩ hclosure),
              Function.update_of_ne hxa]
          · intro hall
            by_cases hpa : p = a
            · exact hfilled x (hpa ▸ hdep).2 hall
            · exact hspread.filled p x hdep (by rwa [Function.update_of_ne hpa]) hp hall
      · have hnot : false = true ↔ db.ParentsOn enabled a := by simpa using hparents
        have hcan := h.eventually_allParentsEnabled hup ha hnot
        refine ⟨false, enabled, ?_, .refl hup [a], hnot, by rwa [hself], fun _ => rfl⟩
        apply eventually_of_succ
        filter_upwards [hcan] with fuel hfuel
        exact enable_refused hself hfuel

/-! ## Sequences of calls -/

omit [DecidableEq ID] in
theorem upClosed_of_all (h : ∀ a ∈ db.registered, enabled a = true) : db.UpClosed enabled :=
  fun p _ hdep _ => h p hdep.1

omit [DecidableEq ID] in
theorem UpClosed.withoutBelow (h : db.UpClosed enabled) (roots : List ID) :
    db.UpClosed (db.withoutBelow roots enabled) := by
  intro p c hdep hc
  by_cases hroot : ∃ root ∈ roots, db.Closure root c
  · unfold DB.withoutBelow at hc
    rw [if_pos hroot] at hc
    cases hc
  · have hnot : ∀ root ∈ roots, ¬ db.Closure root c := by simpa using hroot
    rw [withoutBelow_of_not hnot] at hc
    rw [withoutBelow_of_not fun root hmem hclosure => hnot root hmem (hclosure.tail hdep)]
    exact h p c hdep hc

omit [DecidableEq ID] in
theorem UpClosed.offBelow (h : db.UpClosed enabled) (a : ID) : db.OffBelow a enabled := by
  intro x y _ hxy hoff
  by_contra hon
  rw [h.of_closure hxy (Bool.eq_true_of_not_eq_false hon)] at hoff
  cases hoff

theorem Returns.unique {result result' : Bool} (h : db.Returns a on enabled result enabled')
    (h' : db.Returns a on enabled result' enabled₁) : result = result' ∧ enabled' = enabled₁ := by
  obtain ⟨n, hn⟩ := h
  obtain ⟨m, hm⟩ := h'
  have heq := (hn (max n m) (le_max_left n m)).symm.trans (hm (max n m) (le_max_right n m))
  exact Prod.mk.inj (Option.some.inj heq)

omit [DecidableEq ID] in
theorem Spread.on_iff (h : db.Spread [a] enabled enabled') (hup : db.UpClosed enabled) (hoff : enabled a = false)
    {x : ID} (hx : db.Closure a x) (hne : x ≠ a) : enabled' x = true ↔ db.ParentsOn enabled' x := by
  refine ⟨h.upClosed.parentsOn, fun hparents => ?_⟩
  obtain ⟨p, hap, hdep⟩ := (ReflTransGen.cases_tail hx).resolve_left fun heq => hne heq
  -- everything below was off before
  have hpoff : enabled p = false := hup.offBelow a a p .refl hap hoff
  exact h.filled p x hdep hpoff (hparents p hdep) hparents

/-- **Each single call** returns, with the effect described; thereafter assets are enabled only together
with their parents, as before. -/
theorem IsDAG.returns (h : db.IsDAG) (ha : a ∈ db.registered) (hup : db.UpClosed enabled) (on : Bool) :
    ∃ result enabled', db.Returns a on enabled result enabled' ∧ db.UpClosed enabled' ∧
      db.Switched a on enabled result enabled' := by
  cases on with
  | false =>
    obtain ⟨n, hn⟩ := eventually_atTop.mp (h.eventually_off ha (hup.offBelow a))
    refine ⟨true, _, ⟨n, hn⟩, hup.withoutBelow [a], ?_⟩
    refine ⟨by simp, nofun, fun _ x => ⟨fun hx => ?_, fun hx => ?_⟩, nofun, nofun⟩
    · exact withoutBelow_of_closure List.mem_cons_self hx
    · exact withoutBelow_of_not fun root hroot => by rwa [List.mem_singleton.mp hroot]
  | true =>
    obtain ⟨result, enabled', hrun, hspread, hresult, hself, hsame⟩ := h.enables ha enabled hup
    obtain ⟨n, hn⟩ := eventually_atTop.mp hrun
    refine ⟨result, enabled', ⟨n, hn⟩, hspread.upClosed, ?_⟩
    refine ⟨?_, fun hno => hsame (.inr hno), nofun, fun _ hon => hsame (.inl hon), fun _ hoff hyes => ?_⟩
    · have hparents := h.parentsOn_iff hup ha
      rw [← Bool.not_eq_true, hresult]
      constructor
      · intro hno
        refine ⟨rfl, Bool.eq_false_iff.mpr fun hon => hno (hup.parentsOn hon), ?_⟩
        rw [hparents] at hno
        push Not at hno
        exact hno
      · rintro ⟨-, -, p, hp, hno⟩ hall
        exact hno (hparents.mp hall p hp)
    · refine ⟨hself.mpr (hresult.mp hyes), fun x => ⟨fun hx => ?_, fun hx hne => ?_⟩⟩
      · exact hspread.frame x fun root hroot => by rwa [List.mem_singleton.mp hroot]
      · rw [hspread.on_iff hup hoff hx hne]
        exact h.parentsOn_iff hspread.upClosed (h.closure_registered ha hx)

/-- In any sequence of calls assets are enabled only together with their parents. -/
theorem Reached.upClosed (h : db.Reached enabled) (hdag : db.IsDAG) : db.UpClosed enabled := by
  induction h with
  | established hall => exact upClosed_of_all hall
  | call _ ha hreturns ih =>
    obtain ⟨result, enabled', hreturns', hup, -⟩ := hdag.returns ha ih _
    rwa [(hreturns.unique hreturns').2]

/-- **The flags are consistent with being active**, throughout any sequence of calls: an asset is enabled
exactly if it is active, which is what `isActive` finds; and each further call returns with the effect
described. -/
theorem Reached.enablement (h : db.Reached enabled) (hdag : db.IsDAG) (ha : a ∈ db.registered) :
    (enabled a = true ↔ db.Active enabled a) ∧ (∃ n, ∀ fuel ≥ n, db.isActive enabled fuel a = some (enabled a)) ∧
    ∀ on, ∃ result enabled', db.Returns a on enabled result enabled' ∧ db.Switched a on enabled result enabled' := by
  classical
  have hup := h.upClosed hdag
  refine ⟨hup.active_iff.symm, ?_, fun on => ?_⟩
  · obtain ⟨n, hn⟩ := eventually_atTop.mp (hdag.eventually_isActive enabled ha)
    refine ⟨n, fun fuel hfuel => ?_⟩
    rw [hn fuel hfuel]
    refine congrArg some (Bool.eq_iff_iff.mpr ?_)
    rw [decide_eq_true_iff, hup.active_iff]
  · obtain ⟨result, enabled', hreturns, -, hswitched⟩ := hdag.returns ha hup on
    exact ⟨result, enabled', hreturns, hswitched⟩

end DB

/-! ## An asset and its single dependant -/

open DB

/-- The dependant is off. -/
def dependantOff : Nat → Bool := fun a => a != 1

theorem reached_dependantOff : (family [1]).Reached dependantOff := by
  have hall : (family [1]).Reached fun _ => true := .established fun _ _ => rfl
  have hoff : (family [1]).Returns 1 false (fun _ => true) true dependantOff := by
    refine ⟨1, fun fuel hfuel => ?_⟩
    obtain ⟨depth, rfl⟩ := Nat.exists_eq_add_of_le' hfuel
    have htoggle : (family [1]).enable (depth + 1) 1 false (fun _ => true) =
        ((family [1]).propagateDown false depth (Function.update (fun _ => true) 1 false)
          ((family [1]).assets 1).dependants).map (true, ·) := enable_toggle (by decide) nofun
    refine htoggle.trans (congrArg some (Prod.ext rfl ?_))
    funext a
    by_cases h : a = 1 <;> simp [h, dependantOff]
  exact .call hall (by decide) hoff

/-- The single dependant is switched off, and then the asset is enabled, which is enabled already. -/
theorem enablement_dependantOff :
    (dependantOff 0 = true ↔ (family [1]).Active dependantOff 0) ∧
    (∃ n, ∀ fuel ≥ n, (family [1]).isActive dependantOff fuel 0 = some (dependantOff 0)) ∧
    ∀ on, ∃ result enabled', (family [1]).Returns 0 on dependantOff result enabled' ∧
      (family [1]).Switched 0 on dependantOff result enabled' :=
  reached_dependantOff.enablement family_single_isDAG (by decide)

/-- **Enabling an asset which is on already** does not enable a dependant, while all the parents of this
dependant are active. -/
theorem not_enabled_dependants : ¬ ∀ (db : DB Nat) (enabled enabled' : Nat → Bool), db.IsDAG → db.Reached enabled →
    ∀ a ∈ db.registered, db.Returns a true enabled true enabled' → ∀ x, db.Closure a x → x ≠ a →
    (enabled' x = true ↔ ∀ p ∈ (db.assets x).parents, db.Active enabled' p) := by
  intro hclaim
  have hsame : (family [1]).Returns 0 true dependantOff true dependantOff := by
    refine ⟨1, fun fuel hfuel => ?_⟩
    obtain ⟨depth, rfl⟩ := Nat.exists_eq_add_of_le' hfuel
    exact enable_same rfl
  have hdep : (family [1]).DependsOn 0 1 := ⟨by decide, by decide⟩
  have hiff := hclaim (family [1]) dependantOff dependantOff family_single_isDAG reached_dependantOff 0
    (by decide) hsame 1 (.single hdep) (by decide)
  have hup := reached_dependantOff.upClosed family_single_isDAG
  have hon : dependantOff 1 = true := hiff.mpr fun p hp => by
    rw [List.mem_singleton.mp hp]
    exact hup.active_iff.mpr rfl
  cases hon

end Lumiera.Steam
