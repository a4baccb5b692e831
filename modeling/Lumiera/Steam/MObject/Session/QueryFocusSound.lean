import Lumiera.Base.Machine
import Lumiera.Steam.MObject.Session.QueryFocus

/-! # Soundness of the query focus

Handles are released in any order, and frames are discarded only from the top of the stack, when
they are found unused there. The reference counts tell how many handles refer to each frame; so a
frame discarded is one no handle refers to, and the frame found on top is the most recent one still
in use. -/

namespace Lumiera.Steam.MObject.Session

open List

universe u v

variable {ν : Type v} {P : Type u} {T : PlacementTree P}

/-! ## Paths within the tree -/

variable {path : List P}

namespace PlacementTree

theorem isValid_root : T.isValid T.root = true := by simp [isValid, T.getScope_root]

variable [DecidableEq P]

theorem getLast?_explore {p : P} (hp : (T.getScope p).isSome) {steps : ℕ} (hsteps : T.depth p < steps) :
    (T.explore steps p).getLast? = some T.root := by
  induction steps generalizing p with
  | zero => omega
  | succ steps ih =>
    obtain ⟨scope, hscope⟩ := Option.isSome_iff_exists.mp hp
    rw [explore, hscope]
    by_cases hself : scope = p
    · -- only root is its own scope
      subst hself
      rcases T.getScope_eq _ _ hscope with hroot | ⟨hdepth, -⟩
      · simp [hroot]
      · omega
    · simp only [if_neg hself]
      rcases T.getScope_eq _ _ hscope with hroot | ⟨hdepth, hvalid⟩
      · subst hroot
        exact absurd (Option.some.inj (hscope.symm.trans T.getScope_root)) hself
      · have hrest := ih hvalid (by omega)
        rw [getLast?_cons, hrest]
        rfl

theorem head?_explore {p : P} {steps : ℕ} : (T.explore (steps + 1) p).head? = some p := by
  rw [explore]
  split
  · rfl
  · split <;> rfl

theorem path_reaches {p : P} (hp : T.isValid p = true) : (T.discoverScopePath p).reverse.head? = some T.root ∧
    (T.discoverScopePath p).reverse.getLast? = some p := by
  constructor
  · rw [head?_reverse]
    exact getLast?_explore hp (Nat.lt_succ_self _)
  · rw [getLast?_reverse]
    exact head?_explore

/-- **The path designates a location within the model.** -/
def Located (T : PlacementTree P) (path : List P) : Prop :=
  ∃ p, T.isValid p = true ∧ path = (T.discoverScopePath p).reverse

theorem located_root : T.Located [T.root] :=
  ⟨T.root, isValid_root, by simp [discoverScopePath, explore, T.getScope_root]⟩

theorem Located.head? (h : T.Located path) : path.head? = some T.root := by
  obtain ⟨p, hp, rfl⟩ := h
  exact (path_reaches hp).1

end PlacementTree

namespace FocusState

variable {s s' : FocusState ν P} {h : ν} {f g : ℕ} {table : AList fun _ : ν => ℕ}

section Handles

variable [DecidableEq ν]

/-! ## Counting handles -/

/-- The number of handles referring to a frame. -/
def refs (s : FocusState ν P) (f : ℕ) : ℕ := s.handles.entries.countP fun handle => handle.2 = f

theorem refs_ne_zero_iff : s.refs f ≠ 0 ↔ ∃ h, s.handles.lookup h = some f := by
  rw [refs, ← Nat.pos_iff_ne_zero, countP_pos_iff]
  constructor
  · rintro ⟨⟨h, f'⟩, hmem, hf⟩
    have hf' : f' = f := by simpa using hf
    exact ⟨h, AList.mem_lookup_iff.mpr (hf' ▸ hmem)⟩
  · rintro ⟨h, hlookup⟩
    exact ⟨⟨h, f⟩, AList.mem_lookup_iff.mp hlookup, by simp⟩

theorem entries_perm_erase (hlookup : table.lookup h = some f) :
    table.entries.Perm (⟨h, f⟩ :: (table.erase h).entries) := by
  have hkey : h ∈ table.entries.keys :=
      dlookup_isSome.mp (by rw [AList.lookup] at hlookup; rw [hlookup]; rfl)
  obtain ⟨f', before, behind, hbefore, heq, herase⟩ := exists_of_kerase hkey
  have hmem : (⟨h, f'⟩ : Sigma fun _ : ν => ℕ) ∈ table.entries := by rw [heq]; simp
  have hf : f' = f := Option.some.inj ((AList.mem_lookup_iff.mpr hmem).symm.trans hlookup)
  subst hf
  have hrest : (table.erase h).entries = before ++ behind := herase
  rw [heq, hrest]
  exact perm_middle

theorem countP_insert (hnew : h ∉ table) :
    (table.insert h f).entries.countP (fun handle => handle.2 = g) =
      table.entries.countP (fun handle => handle.2 = g) + if f = g then 1 else 0 := by
  rw [AList.entries_insert_of_notMem hnew, countP_cons]
  simp

theorem countP_erase (hlookup : table.lookup h = some f) :
    table.entries.countP (fun handle => handle.2 = g) =
      (table.erase h).entries.countP (fun handle => handle.2 = g) + if f = g then 1 else 0 := by
  rw [(entries_perm_erase hlookup).countP_eq, countP_cons]
  simp

end Handles

/-! ## Frames -/

/-- The path held by a frame of the stack. -/
def pathAt (s : FocusState ν P) (f : ℕ) : Option (List P) :=
  (s.paths_.find? fun path => path.id = f).map (·.path_)

/-- The identities of the frames on the stack, beginning with the top. -/
def ids (s : FocusState ν P) : List ℕ := s.paths_.map (·.id)

theorem pathAt_eq_some (hids : s.ids.Nodup) :
    s.pathAt f = some path ↔ ∃ fr ∈ s.paths_, fr.id = f ∧ fr.path_ = path := by
  obtain ⟨paths, created, handles⟩ := s
  simp only [ids, pathAt] at hids ⊢
  induction paths with
  | nil => simp
  | cons fr paths ih =>
    grind

section OnFrame

variable {change : ScopePath P → ScopePath P}

theorem pathAt_onFrame (hid : ∀ fr, (change fr).id = fr.id) (hpath : ∀ fr, (change fr).path_ = fr.path_) :
    (s.onFrame f change).pathAt g = s.pathAt g := by
  obtain ⟨paths, created, handles⟩ := s
  simp only [pathAt, onFrame]
  induction paths with
  | nil => rfl
  | cons fr paths ih =>
    grind

theorem pathAt_onFrame_of_ne (hid : ∀ fr, (change fr).id = fr.id) (hne : g ≠ f) :
    (s.onFrame f change).pathAt g = s.pathAt g := by
  obtain ⟨paths, created, handles⟩ := s
  simp only [pathAt, onFrame]
  induction paths with
  | nil => rfl
  | cons fr paths ih =>
    grind

theorem pathAt_onFrame_self (hid : ∀ fr, (change fr).id = fr.id) (hpath : ∀ fr, (change fr).path_ = path)
    (hf : f ∈ s.ids) : (s.onFrame f change).pathAt f = some path := by
  obtain ⟨paths, created, handles⟩ := s
  simp only [pathAt, onFrame, ids] at hf ⊢
  induction paths with
  | nil => cases hf
  | cons fr paths ih =>
    grind

theorem pathAt_addRef : (s.onFrame f ScopePath.addRef).pathAt g = s.pathAt g :=
  pathAt_onFrame (fun _ => rfl) fun _ => rfl

theorem pathAt_release : (s.onFrame f ScopePath.release).pathAt g = s.pathAt g := by
  apply pathAt_onFrame
  · intro fr
    unfold ScopePath.release
    split <;> rfl
  · intro fr
    unfold ScopePath.release
    split <;> rfl

end OnFrame

/-! ## The invariant -/

variable [DecidableEq P] [DecidableEq ν]

/-- **The stack is sound**: there is a frame, frames further down are older, each handle refers to a
frame on the stack, each frame counts the handles referring to it, and each path designates a
location within the model. -/
structure Sound (T : PlacementTree P) (s : FocusState ν P) : Prop where
  nonempty : s.paths_ ≠ []
  ordered : s.ids.Pairwise (· > ·)
  fresh : ∀ f ∈ s.ids, f < s.created
  referred : ∀ h f, s.handles.lookup h = some f → f ∈ s.ids
  counted : ∀ fr ∈ s.paths_, fr.refcount_ = s.refs fr.id
  located : ∀ fr ∈ s.paths_, T.Located fr.path_

theorem Sound.nodup (hs : s.Sound T) : s.ids.Nodup := hs.ordered.imp Nat.ne_of_gt

theorem Sound.refcount_ne_zero (hs : s.Sound T) {fr : ScopePath P} (hfr : fr ∈ s.paths_) :
    fr.refcount_ ≠ 0 ↔ ∃ h, s.handles.lookup h = some fr.id := by
  rw [hs.counted fr hfr, refs_ne_zero_iff]

theorem Sound.exists_frame (hs : s.Sound T) (hlookup : s.handles.lookup h = some f) :
    ∃ fr ∈ s.paths_, fr.id = f ∧ fr.refcount_ ≠ 0 := by
  obtain ⟨fr, hfr, rfl⟩ := mem_map.mp (hs.referred h f hlookup)
  exact ⟨fr, hfr, rfl, (hs.refcount_ne_zero hfr).mpr ⟨h, hlookup⟩⟩

variable {change : ScopePath P → ScopePath P}

/-- Changing frames and handles together keeps the stack sound when the counts are right afterwards. -/
theorem Sound.mapFrames (hs : s.Sound T)
    (hid : ∀ fr, (change fr).id = fr.id) (hlocated : ∀ fr ∈ s.paths_, T.Located (change fr).path_)
    (hreferred : ∀ h f, table.lookup h = some f → f ∈ s.ids)
    (hcounted : ∀ fr ∈ s.paths_,
      (change fr).refcount_ = table.entries.countP fun handle => handle.2 = fr.id) :
    Sound T { s with paths_ := s.paths_.map change, handles := table } := by
  have hids : ids { s with paths_ := s.paths_.map change, handles := table } = s.ids := by
    simp only [ids, map_map]
    exact map_congr_left fun fr _ => hid fr
  refine ⟨by simpa using hs.nonempty, ?_, ?_, ?_, ?_, ?_⟩
  · rw [hids]; exact hs.ordered
  · rw [hids]; exact hs.fresh
  · rw [hids]; exact hreferred
  · intro fr hfr
    obtain ⟨fr, hmem, rfl⟩ := mem_map.mp hfr
    rw [hid]
    exact hcounted fr hmem
  · intro fr hfr
    obtain ⟨fr, hmem, rfl⟩ := mem_map.mp hfr
    exact hlocated fr hmem

theorem Sound.onFrame (hs : s.Sound T)
    (hid : ∀ fr, (change fr).id = fr.id) (hcount : ∀ fr, (change fr).refcount_ = fr.refcount_)
    (hlocated : ∀ fr, T.Located (change fr).path_) : (s.onFrame f change).Sound T := by
  refine hs.mapFrames (fun fr => ?_) (fun fr hfr => ?_) hs.referred fun fr hfr => ?_
  · split
    · exact hid fr
    · rfl
  · split
    · exact hlocated fr
    · exact hs.located fr hfr
  · rw [← refs, ← hs.counted fr hfr]
    split
    · exact hcount fr
    · rfl

theorem Sound.attach (hs : s.Sound T) (hnew : h ∉ s.handles) (hf : f ∈ s.ids) : (s.attach h f).Sound T := by
  refine hs.mapFrames (fun fr => ?_) (fun fr hfr => ?_) (fun h' f' hlookup => ?_) fun fr hfr => ?_
  · split <;> rfl
  · have hlocated := hs.located fr hfr
    split <;> exact hlocated
  · by_cases hh : h' = h
    · subst hh
      rw [AList.lookup_insert] at hlookup
      cases hlookup
      exact hf
    · rw [AList.lookup_insert_ne hh] at hlookup
      exact hs.referred h' f' hlookup
  · have hcounted := hs.counted fr hfr
    rw [refs] at hcounted
    rw [countP_insert hnew, ← hcounted]
    split
    · next heq => simp [ScopePath.addRef, heq]
    · next hne => simp [Ne.symm hne]

theorem Sound.detach (hs : s.Sound T) : (s.detach h).Sound T := by
  unfold FocusState.detach
  split
  · exact hs
  · next f hlookup =>
      refine hs.mapFrames (fun fr => ?_) (fun fr hfr => ?_) (fun h' f' hother => ?_) fun fr hfr => ?_
      · split
        · unfold ScopePath.release
          split <;> rfl
        · rfl
      · have hlocated := hs.located fr hfr
        split
        · unfold ScopePath.release
          split <;> exact hlocated
        · exact hlocated
      · by_cases hh : h' = h
        · rw [hh, AList.lookup_erase] at hother
          cases hother
        · rw [AList.lookup_erase_ne hh] at hother
          exact hs.referred h' f' hother
      · have hcounted := hs.counted fr hfr
        rw [refs, countP_erase hlookup] at hcounted
        split
        · next heq =>
            rw [if_pos heq.symm] at hcounted
            simp [ScopePath.release, hcounted]
        · next hne =>
            rw [if_neg (Ne.symm hne)] at hcounted
            exact hcounted

theorem Sound.assign (hs : s.Sound T) (hf : f ∈ s.ids) : (s.assign h f).Sound T := by
  unfold FocusState.assign
  split
  · exact hs
  · next old hlookup =>
      simp only [FocusState.onFrame, map_map]
      refine hs.mapFrames (fun fr => ?_) (fun fr hfr => ?_) (fun h' f' hother => ?_) fun fr hfr => ?_
      · simp only [ScopePath.addRef, ScopePath.release]
        grind
      · have hlocated := hs.located fr hfr
        simp only [ScopePath.addRef, ScopePath.release]
        grind
      · by_cases hh : h' = h
        · subst hh
          rw [AList.lookup_insert] at hother
          cases hother
          exact hf
        · rw [AList.lookup_insert_ne hh] at hother
          exact hs.referred h' f' hother
      · -- the entry of the handle is replaced by one for the new frame
        have hcounted := hs.counted fr hfr
        rw [refs, countP_erase hlookup] at hcounted
        have hentries : (s.handles.insert h f).entries = ⟨h, f⟩ :: (s.handles.erase h).entries := rfl
        simp only [ScopePath.addRef, ScopePath.release]
        grind

/-! ## Opening and discarding frames -/

theorem sound_openDefaultFrame (hnone : ∀ h, s.handles.lookup h = none) : (s.openDefaultFrame T).Sound T where
  nonempty := by simp [openDefaultFrame]
  ordered := by simp [openDefaultFrame, ids]
  fresh := by simp [openDefaultFrame, ids]
  referred := by
    intro h f hlookup
    rw [show (s.openDefaultFrame T).handles = s.handles from rfl, hnone h] at hlookup
    cases hlookup
  counted := by
    intro fr hfr
    have hunused : s.refs s.created = 0 := by
      by_contra hrefs
      obtain ⟨h, hlookup⟩ := refs_ne_zero_iff.mp hrefs
      rw [hnone h] at hlookup
      cases hlookup
    obtain rfl := mem_singleton.mp hfr
    exact hunused.symm
  located := by
    intro fr hfr
    obtain rfl := mem_singleton.mp hfr
    exact PlacementTree.located_root

theorem sound_initial : (initial T : FocusState ν P).Sound T :=
  sound_openDefaultFrame fun _ => rfl

theorem Sound.pushPath (hs : s.Sound T) : (s.pushPath T).Sound T where
  nonempty := by simp [FocusState.pushPath]
  ordered := pairwise_cons.mpr ⟨hs.fresh, hs.ordered⟩
  fresh := by
    intro f hf
    rcases mem_cons.mp hf with rfl | hf
    · exact Nat.lt_succ_self _
    · exact Nat.lt_succ_of_lt (hs.fresh f hf)
  referred h f hlookup := mem_cons_of_mem _ (hs.referred h f hlookup)
  counted := by
    intro fr hfr
    rcases mem_cons.mp hfr with rfl | hfr
    · have hunused : s.refs s.created = 0 := by
        by_contra hrefs
        obtain ⟨h, hlookup⟩ := refs_ne_zero_iff.mp hrefs
        exact Nat.lt_irrefl _ (hs.fresh _ (hs.referred h _ hlookup))
      exact hunused.symm
    · exact hs.counted fr hfr
  located := by
    intro fr hfr
    rcases mem_cons.mp hfr with rfl | hfr
    · exact ⟨T.root, PlacementTree.isValid_root, rfl⟩
    · exact hs.located fr hfr

/-- **What accessing the current focus does to the stack**: frames without handles are discarded
from the top; the frame on top thereafter is in use, or there are no handles, and it is located at
root. -/
structure Uncovered (T : PlacementTree P) (s t : FocusState ν P) : Prop where
  sound : t.Sound T
  handles : t.handles = s.handles
  kept : ∀ fr ∈ s.paths_, fr.refcount_ ≠ 0 → fr ∈ t.paths_
  current : ∃ back below, t.paths_ = back :: below ∧
    ((back ∈ s.paths_ ∧ back.refcount_ ≠ 0) ∨ ((∀ h, s.handles.lookup h = none) ∧ back.path_ = [T.root]))

theorem Sound.no_handles (hs : s.Sound T) (hunused : ∀ fr ∈ s.paths_, fr.refcount_ = 0) (h : ν) :
    s.handles.lookup h = none := by
  cases hlookup : s.handles.lookup h with
  | none => rfl
  | some f =>
    obtain ⟨fr, hfr, -, hused⟩ := hs.exists_frame hlookup
    exact absurd (hunused fr hfr) hused

theorem mem_dropWhile_of_not {α : Type*} {p : α → Bool} {a : α} {as : List α} (ha : a ∈ as) (hp : p a = false) :
    a ∈ as.dropWhile p := by
  induction as with
  | nil => cases ha
  | cons b as ih =>
    rw [dropWhile_cons]
    split
    · next hb =>
        rcases mem_cons.mp ha with rfl | ha
        · rw [hp] at hb
          cases hb
        · exact ih ha
    · exact ha

theorem Sound.discardUnused (hs : s.Sound T) : Uncovered T s (s.discardUnused T) := by
  have hkept : ∀ fr ∈ s.paths_, fr.refcount_ ≠ 0 → fr ∈ s.paths_.dropWhile fun path => path.refcount_ = 0 :=
    fun fr hfr hused => mem_dropWhile_of_not hfr (by simpa using hused)
  have hsuffix : (s.paths_.dropWhile fun path => path.refcount_ = 0).Sublist s.paths_ :=
    (dropWhile_suffix _).sublist
  unfold FocusState.discardUnused
  split
  · next hempty =>
      rw [hempty] at hkept
      have hnone : ∀ h, s.handles.lookup h = none := hs.no_handles fun fr hfr => by
        by_contra hused
        cases hkept fr hfr hused
      have hdiscarded : ∀ fr ∈ s.paths_, fr.refcount_ ≠ 0 → fr ∈ (s.openDefaultFrame T).paths_ :=
        fun fr hfr hused => absurd (hkept fr hfr hused) not_mem_nil
      exact ⟨sound_openDefaultFrame hnone, rfl, hdiscarded, _, _, rfl, .inr ⟨hnone, rfl⟩⟩
  · next back below hrest =>
      rw [hrest] at hkept hsuffix
      have hused : back.refcount_ ≠ 0 := by
        have hhead := head?_dropWhile_not
            (fun path : ScopePath P => decide (path.refcount_ = 0)) s.paths_
        rw [hrest] at hhead
        simpa using hhead
      refine ⟨⟨by simp, ?_, ?_, ?_, ?_, ?_⟩, rfl, hkept, back, below, rfl,
        .inl ⟨hsuffix.subset mem_cons_self, hused⟩⟩
      · exact hs.ordered.sublist (hsuffix.map _)
      · exact fun f hf => hs.fresh f ((hsuffix.map _).subset hf)
      · intro h f hlookup
        obtain ⟨fr, hfr, rfl, hfrused⟩ := hs.exists_frame hlookup
        exact mem_map_of_mem (hkept fr hfr hfrused)
      · exact fun fr hfr => hs.counted fr (hsuffix.subset hfr)
      · exact fun fr hfr => hs.located fr (hsuffix.subset hfr)

theorem Sound.popUnused (hs : s.Sound T) (hunused : ∀ back below, s.paths_ = back :: below → back.refcount_ = 0) :
    Uncovered T s (s.popUnused T) := by
  unfold FocusState.popUnused
  split
  · next front hfront =>
      split
      · exact hs.discardUnused
      · next hroot =>
          -- the base frame is located at root, and remains
          have hpath : front.path_ = [T.root] := by
            have hhead := (hs.located front (by rw [hfront]; exact mem_singleton_self _)).head?
            have hlength : front.path_.length ≤ 1 := by simpa [ScopePath.isValid] using hroot
            match hpath : front.path_ with
            | [] => rw [hpath] at hhead; cases hhead
            | [root] => rw [hpath] at hhead; rw [Option.some.inj hhead]
            | _ :: _ :: _ => rw [hpath] at hlength; simp at hlength
          have hnone := hs.no_handles fun fr hfr => by
            rw [hfront] at hfr
            obtain rfl := mem_singleton.mp hfr
            exact hunused fr [] hfront
          exact ⟨hs, rfl, fun _ hfr _ => hfr, front, [], hfront, .inr ⟨hnone, hpath⟩⟩
  · exact hs.discardUnused

/-- The current focus is the topmost frame in use, or a frame located at root. -/
theorem Sound.top (hs : s.Sound T) : Uncovered T s (s.top T) := by
  unfold FocusState.top
  split
  · next hempty => exact absurd hempty hs.nonempty
  · next back below hback =>
      split
      · next hunused =>
          refine hs.popUnused fun back' below' hback' => ?_
          rw [hback] at hback'
          cases hback'
          exact hunused
      · next hused =>
          have hmem : back ∈ s.paths_ := by rw [hback]; exact mem_cons_self
          exact ⟨hs, rfl, fun _ hfr _ => hfr, back, below, hback, .inl ⟨hmem, hused⟩⟩

/-! ## Locations -/

/-- The location of a handle: the path held by its frame. -/
def location (s : FocusState ν P) (h : ν) : Option (List P) := (s.handles.lookup h).bind s.pathAt

/-- The path of the current focus, as delivered by `ScopeLocator::currPath`. -/
def currentPath (T : PlacementTree P) (s : FocusState ν P) : Option (List P) :=
  (s.top T).paths_.head?.map (·.path_)

theorem Uncovered.location {t : FocusState ν P} (hst : Uncovered T s t) (hs : s.Sound T) (h : ν) :
    t.location h = s.location h := by
  rw [FocusState.location, FocusState.location, hst.handles]
  cases hlookup : s.handles.lookup h with
  | none => rfl
  | some f =>
    obtain ⟨fr, hfr, hid, hused⟩ := hs.exists_frame hlookup
    have hbefore : s.pathAt f = some fr.path_ := (pathAt_eq_some hs.nodup).mpr ⟨fr, hfr, hid, rfl⟩
    have hafter : t.pathAt f = some fr.path_ :=
      (pathAt_eq_some hst.sound.nodup).mpr ⟨fr, hst.kept fr hfr hused, hid, rfl⟩
    rw [Option.bind_some, Option.bind_some, hbefore, hafter]

theorem Sound.location_pushPath (hs : s.Sound T) (h : ν) : (s.pushPath T).location h = s.location h := by
  rw [location, location, show (s.pushPath T).handles = s.handles from rfl]
  cases hlookup : s.handles.lookup h with
  | none => rfl
  | some f =>
    have hold : s.created ≠ f := Nat.ne_of_gt (hs.fresh f (hs.referred h f hlookup))
    simp [pathAt, FocusState.pushPath, ScopePath.navigate, hold]

omit [DecidableEq P] in
theorem location_onFrame_of_ne (hid : ∀ fr, (change fr).id = fr.id)
    (hne : s.handles.lookup h ≠ some f) : (s.onFrame f change).location h = s.location h := by
  have hhandles : (s.onFrame f change).handles = s.handles := rfl
  rw [location, location, hhandles]
  cases hlookup : s.handles.lookup h with
  | none => rfl
  | some g => exact pathAt_onFrame_of_ne hid fun heq => hne (heq ▸ hlookup)

omit [DecidableEq P] in
theorem location_attach_of_ne {h' : ν} (hne : h' ≠ h) : (s.attach h f).location h' = s.location h' := by
  have hpath : (s.attach h f).pathAt = s.pathAt := funext fun g => pathAt_addRef
  rw [location, location, hpath, attach, AList.lookup_insert_ne hne]

omit [DecidableEq P] in
theorem location_detach_of_ne {h' : ν} (hne : h' ≠ h) : (s.detach h).location h' = s.location h' := by
  unfold detach
  split
  · rfl
  · next f hlookup =>
      have hpath : pathAt { s.onFrame f ScopePath.release with handles := s.handles.erase h } = s.pathAt :=
        funext fun g => pathAt_release
      rw [location, location, hpath, AList.lookup_erase_ne hne]

omit [DecidableEq P] in
theorem location_assign_of_ne {h' : ν} (hne : h' ≠ h) : (s.assign h f).location h' = s.location h' := by
  unfold assign
  split
  · rfl
  · next old hlookup =>
      have hpath : pathAt { (s.onFrame f ScopePath.addRef).onFrame old ScopePath.release with
          handles := s.handles.insert h f } = s.pathAt :=
        funext fun g => pathAt_release.trans pathAt_addRef
      rw [location, location, hpath, AList.lookup_insert_ne hne]

/-! ## Operations -/

omit [DecidableEq P] [DecidableEq ν] in
theorem mem_ids_of_head? {back : ScopePath P} (hback : s.paths_.head? = some back) : back.id ∈ s.ids :=
  mem_map_of_mem (mem_of_mem_head? hback)

omit [DecidableEq P] in
theorem notMem_detach : h ∉ (s.detach h).handles := by
  unfold detach
  split
  · next hnone => exact AList.lookup_eq_none.mp hnone
  · exact AList.lookup_eq_none.mp (AList.lookup_erase h _)

theorem Sound.attachCurrent (hs : s.Sound T) (hnew : h ∉ s.handles) (hattach : s.attachCurrent T h = some s') :
    s'.Sound T ∧ ∀ h', h' ≠ h → s'.location h' = s.location h' := by
  obtain ⟨back, hback, rfl⟩ := Option.map_eq_some_iff.mp hattach
  have hnew' : h ∉ (s.top T).handles := by rwa [hs.top.handles]
  refine ⟨hs.top.sound.attach hnew' (mem_ids_of_head? hback), fun h' hne => ?_⟩
  rw [location_attach_of_ne hne, hs.top.location hs]

theorem pushAndShift_eq {target : P} (hvalid : T.isValid target = true) :
    s.pushAndShift T h target =
      some (((s.pushPath T).attach h s.created).onFrame s.created (ScopePath.navigate T target), false) := by
  have hlookup : ((s.pushPath T).attach h s.created).handles.lookup h = some s.created :=
      AList.lookup_insert _
  have hback : (s.pushPath T).paths_.head? = some
      (ScopePath.navigate T T.root ⟨s.created, 0, [T.root]⟩) := rfl
  simp only [pushAndShift, hback, ScopePath.navigate, shift, hvalid]
  simp [hlookup]

theorem Sound.pushAndShift (hs : s.Sound T) (hnew : h ∉ s.handles) {target : P} (hvalid : T.isValid target = true)
    {raised : Bool} (hpush : s.pushAndShift T h target = some (s', raised)) : s'.Sound T ∧ raised = false ∧ ∀ h',
    h' ≠ h → s'.location h' = s.location h' := by
  rw [pushAndShift_eq hvalid] at hpush
  cases hpush
  have hpushed := hs.pushPath
  have hattached := hpushed.attach (f := s.created) hnew mem_cons_self
  refine ⟨hattached.onFrame (fun _ => rfl) (fun _ => rfl) fun _ => ⟨target, hvalid, rfl⟩, rfl,
    fun h' hne => ?_⟩
  -- no other handle refers to the frame just pushed
  have hother : ((s.pushPath T).attach h s.created).handles.lookup h' ≠ some s.created := by
    rw [show ((s.pushPath T).attach h s.created).handles.lookup h' = s.handles.lookup h' from
      AList.lookup_insert_ne hne]
    exact fun hlookup => Nat.lt_irrefl _ (hs.fresh _ (hs.referred h' _ hlookup))
  have hframe : (((s.pushPath T).attach h s.created).onFrame s.created
      (ScopePath.navigate T target)).location h' =
      ((s.pushPath T).attach h s.created).location h' := location_onFrame_of_ne (fun _ => rfl) hother
  rw [hframe, location_attach_of_ne hne, hs.location_pushPath]

namespace Action

/-- The target of an operation which navigates. -/
def target : Action ν P → Option P
  | .shift _ container => some container
  | .pushTo _ otherContainer => some otherContainer
  | _ => none

/-- The handle operated on, or created. -/
def handle : Action ν P → ν
  | .create h | .copy h _ | .assign h _ | .destroy h | .shift h _ | .reset h | .pop h | .push h |
    .pushTo h _ => h

/-- Operations which navigate the frame of a handle. -/
def Navigates : Action ν P → Prop
  | .shift .. | .reset .. => True
  | _ => False

/-- Where an operation navigates to. -/
def destination (T : PlacementTree P) : Action ν P → P
  | .shift _ container => container
  | .pushTo _ otherContainer => otherContainer
  | _ => T.root

end Action

/-- **What an operation does**: it raises an exception exactly if its target is not within the
model, and then nothing happens; otherwise locations change only for the handle operated on, save
that navigating moves all handles which share its frame. -/
structure StepSound (T : PlacementTree P) (s : FocusState ν P) (a : Action ν P) (s' : FocusState ν P)
    (raised : Bool) : Prop where
  raised_iff : raised = true ↔ ∃ target, a.target = some target ∧ T.isValid target = false
  unchanged : raised = true → s' = s
  others : ¬ a.Navigates → ∀ h, h ≠ a.handle → s'.location h = s.location h
  handles : a.Navigates → s'.handles = s.handles
  apart : a.Navigates → ∀ h, s.handles.lookup h ≠ s.handles.lookup a.handle → s'.location h = s.location h
  together : a.Navigates → raised = false → ∀ h, s.handles.lookup h = s.handles.lookup a.handle →
    s'.location h = some (T.discoverScopePath (a.destination T)).reverse

variable {a : Action ν P}

theorem stepSound_navigate (hs : s.Sound T) (ha : a.Navigates)
    (hlookup : s.handles.lookup a.handle = some f)
    (hvalid : ∀ target, a.target = some target → T.isValid target = true)
    (hid : ∀ fr, (change fr).id = fr.id)
    (hpath : ∀ fr, (change fr).path_ = (T.discoverScopePath (a.destination T)).reverse) :
    StepSound T s a (s.onFrame f change) false where
  raised_iff := by
    refine ⟨fun h => (by cases h), ?_⟩
    rintro ⟨target, htarget, hinvalid⟩
    rw [hvalid target htarget] at hinvalid
    cases hinvalid
  unchanged h := by cases h
  others hnot := absurd ha hnot
  handles _ := rfl
  apart _ h hne := location_onFrame_of_ne hid fun hlookup' => hne (hlookup'.trans hlookup.symm)
  together := by
    intro _ _ h hsame
    rw [location, show (s.onFrame f change).handles = s.handles from rfl, hsame, hlookup]
    exact pathAt_onFrame_self hid hpath (hs.referred _ f hlookup)

theorem stepSound_raised {target : P} (htarget : a.target = some target)
    (hinvalid : T.isValid target = false) : StepSound T s a s true where
  raised_iff := ⟨fun _ => ⟨target, htarget, hinvalid⟩, fun _ => rfl⟩
  unchanged _ := rfl
  others _ _ _ := rfl
  handles _ := rfl
  apart _ _ _ := rfl
  together _ h := by cases h

theorem stepSound_others (ha : ¬ a.Navigates)
    (hvalid : ∀ target, a.target = some target → T.isValid target = true)
    (hothers : ∀ h, h ≠ a.handle → s'.location h = s.location h) : StepSound T s a s' false where
  raised_iff := by
    refine ⟨fun h => (by cases h), ?_⟩
    rintro ⟨target, htarget, hinvalid⟩
    rw [hvalid target htarget] at hinvalid
    cases hinvalid
  unchanged h := by cases h
  others _ := hothers
  handles h := absurd h ha
  apart h := absurd h ha
  together h := absurd h ha

/-- Each operation keeps the stack sound, and does what it should do. -/
theorem Sound.perform (hs : s.Sound T) {raised : Bool} (h : s.perform T a = some (s', raised)) :
    s'.Sound T ∧ StepSound T s a s' raised := by
  cases a with
  | create n =>
    simp only [FocusState.perform] at h
    split at h
    · cases h
    · next hnew =>
        obtain ⟨t, hattach, heq⟩ := Option.map_eq_some_iff.mp h
        cases heq
        obtain ⟨hsound, hothers⟩ := hs.attachCurrent hnew hattach
        exact ⟨hsound, stepSound_others id (fun _ ht => by cases ht) hothers⟩
  | copy n other =>
    simp only [FocusState.perform] at h
    split at h
    · cases h
    · next hnew =>
        obtain ⟨f, hlookup, heq⟩ := Option.map_eq_some_iff.mp h
        cases heq
        exact ⟨hs.attach hnew (hs.referred other f hlookup),
          stepSound_others id (fun _ ht => by cases ht) fun h' hne => location_attach_of_ne hne⟩
  | assign n other =>
    simp only [FocusState.perform] at h
    split at h
    · obtain ⟨f, hlookup, heq⟩ := Option.map_eq_some_iff.mp h
      cases heq
      exact ⟨hs.assign (hs.referred other f hlookup),
        stepSound_others id (fun _ ht => by cases ht) fun h' hne => location_assign_of_ne hne⟩
    · cases h
  | destroy n =>
    simp only [FocusState.perform] at h
    split at h
    · cases h
      exact ⟨hs.detach, stepSound_others id
        (fun _ ht => by cases ht) fun h' hne => location_detach_of_ne hne⟩
    · cases h
  | shift n container =>
    simp only [FocusState.perform, FocusState.shift] at h
    split at h
    · split at h
      · next hvalid =>
          obtain ⟨f, hlookup, heq⟩ := Option.map_eq_some_iff.mp h
          cases heq
          refine ⟨hs.onFrame (fun _ => rfl) (fun _ => rfl) fun _ => ⟨container, hvalid, rfl⟩, ?_⟩
          exact stepSound_navigate (a := .shift n container) hs trivial hlookup
            (fun _ ht => by cases ht; exact hvalid) (fun _ => rfl) fun _ => rfl
      · next hinvalid =>
          cases h
          exact ⟨hs, stepSound_raised rfl (by simpa using hinvalid)⟩
    · cases h
  | reset n =>
    obtain ⟨f, hlookup, heq⟩ := Option.map_eq_some_iff.mp h
    cases heq
    refine ⟨hs.onFrame (fun _ => rfl) (fun _ => rfl) fun _ => PlacementTree.located_root, ?_⟩
    have hroot : [T.root] = (T.discoverScopePath T.root).reverse := by
      simp [PlacementTree.discoverScopePath, PlacementTree.explore, T.getScope_root]
    exact stepSound_navigate (a := .reset n) hs trivial hlookup (fun _ ht => by cases ht) (fun _ => rfl)
      fun _ => hroot
  | pop n =>
    simp only [FocusState.perform] at h
    split at h
    · obtain ⟨t, hattach, heq⟩ := Option.map_eq_some_iff.mp h
      cases heq
      obtain ⟨hsound, hothers⟩ := hs.detach.attachCurrent notMem_detach hattach
      exact ⟨hsound, stepSound_others id (fun _ ht => by cases ht) fun h' hne =>
        (hothers h' hne).trans (location_detach_of_ne hne)⟩
    · cases h
  | push n =>
    simp only [FocusState.perform] at h
    split at h
    · cases h
    · next hnew =>
        obtain ⟨back, hback, h⟩ := Option.bind_eq_some_iff.mp h
        obtain ⟨leaf, hleaf, h⟩ := Option.bind_eq_some_iff.mp h
        obtain ⟨p, hp, hpath⟩ := hs.top.sound.located back (mem_of_mem_head? hback)
        have hvalid : T.isValid leaf = true := by
          rw [hpath, (PlacementTree.path_reaches hp).2] at hleaf
          cases hleaf
          exact hp
        have hnew' : n ∉ (s.top T).handles := by rwa [hs.top.handles]
        obtain ⟨hsound, rfl, hothers⟩ := hs.top.sound.pushAndShift hnew' hvalid h
        refine ⟨hsound, stepSound_others id (fun _ ht => by cases ht) fun h' hne => ?_⟩
        rw [hothers h' hne, hs.top.location hs]
  | pushTo n otherContainer =>
    simp only [FocusState.perform] at h
    split at h
    · cases h
    · next hnew =>
        split at h
        · next hvalid =>
            obtain ⟨hsound, rfl, hothers⟩ := hs.pushAndShift hnew hvalid h
            exact ⟨hsound, stepSound_others id (fun _ ht => by cases ht; exact hvalid) hothers⟩
        · next hinvalid =>
            cases h
            exact ⟨hs, stepSound_raised rfl (by simpa using hinvalid)⟩

/-- What an operation requires of the handles: a new one does not exist yet, and the others do. -/
def Action.Applicable (s : FocusState ν P) : Action ν P → Prop
  | .create h | .push h | .pushTo h _ => h ∉ s.handles
  | .copy h other => h ∉ s.handles ∧ other ∈ s.handles
  | .assign h other => h ∈ s.handles ∧ other ∈ s.handles
  | .destroy h | .shift h _ | .reset h | .pop h => h ∈ s.handles

theorem Sound.exists_head? (hs : s.Sound T) : ∃ back, (s.top T).paths_.head? = some back := by
  obtain ⟨back, below, hback, -⟩ := hs.top.current
  exact ⟨back, by rw [hback]; rfl⟩

/-- Each operation can be performed when the handles are as required. -/
theorem Sound.exists_perform (hs : s.Sound T) (ha : a.Applicable s) :
    ∃ s' raised, s.perform T a = some (s', raised) := by
  have hlookup : ∀ n, n ∈ s.handles → ∃ f, s.handles.lookup n = some f :=
    fun n hn => Option.isSome_iff_exists.mp (AList.lookup_isSome.mpr hn)
  cases a with
  | create n =>
    obtain ⟨back, hback⟩ := hs.exists_head?
    have hnew : n ∉ s.handles := ha
    exact ⟨_, false, by simp only [FocusState.perform, if_neg hnew, FocusState.attachCurrent, hback]; rfl⟩
  | copy n other =>
    obtain ⟨hnew, hother⟩ : n ∉ s.handles ∧ other ∈ s.handles := ha
    obtain ⟨f, hf⟩ := hlookup other hother
    exact ⟨_, false, by simp only [FocusState.perform, if_neg hnew, hf]; rfl⟩
  | assign n other =>
    obtain ⟨hn, hother⟩ : n ∈ s.handles ∧ other ∈ s.handles := ha
    obtain ⟨f, hf⟩ := hlookup other hother
    exact ⟨_, false, by simp only [FocusState.perform, if_pos hn, hf]; rfl⟩
  | destroy n => exact ⟨_, false, if_pos ha⟩
  | shift n container =>
    have hn : n ∈ s.handles := ha
    obtain ⟨f, hf⟩ := hlookup n hn
    simp only [FocusState.perform, if_pos hn, FocusState.shift, hf]
    split
    · exact ⟨_, _, rfl⟩
    · exact ⟨_, _, rfl⟩
  | reset n =>
    obtain ⟨f, hf⟩ := hlookup n ha
    exact ⟨_, false, by simp only [FocusState.perform, hf]; rfl⟩
  | pop n =>
    obtain ⟨back, hback⟩ := (hs.detach (h := n)).exists_head?
    have hn : n ∈ s.handles := ha
    exact ⟨_, false, by simp only [FocusState.perform, if_pos hn, FocusState.attachCurrent, hback]; rfl⟩
  | push n =>
    obtain ⟨back, hback⟩ := hs.exists_head?
    obtain ⟨p, hp, hpath⟩ := hs.top.sound.located back (mem_of_mem_head? hback)
    have hleaf : back.path_.getLast? = some p := by rw [hpath, (PlacementTree.path_reaches hp).2]
    have hnew : n ∉ s.handles := ha
    simp only [FocusState.perform, if_neg hnew, hback, Option.bind_some, hleaf, pushAndShift_eq hp]
    exact ⟨_, _, rfl⟩
  | pushTo n otherContainer =>
    have hnew : n ∉ s.handles := ha
    simp only [FocusState.perform, if_neg hnew]
    split
    · next hvalid => exact ⟨_, _, pushAndShift_eq hvalid⟩
    · exact ⟨_, _, rfl⟩

/-! ## All runs -/

/-- The stack and its handles, with any operations performed. -/
def focusMachine (ν : Type v) [DecidableEq ν] (T : PlacementTree P) :
    Machine (FocusState ν P) (Action ν P × Bool) where
  init s := s = initial T
  step s a s' := s.perform T a.1 = some (s', a.2)

/-- **Consistency of the focus stack.** Each handle refers to a frame on the stack; each frame
counts its handles; and accessing the current path, which affects no handle, delivers the most
recent frame which is referred by some handle, or else a frame at root. -/
structure FocusConsistent (T : PlacementTree P) (s : FocusState ν P) : Prop where
  on_stack : ∀ h f, s.handles.lookup h = some f → ∃ fr ∈ s.paths_, fr.id = f
  ref_count : ∀ fr ∈ s.paths_, fr.refcount_ = (s.handles.entries.filter fun handle => handle.2 = fr.id).length
  current : ∃ back below, (s.top T).paths_ = back :: below ∧
    ((back ∈ s.paths_ ∧ (∃ h, s.handles.lookup h = some back.id) ∧
        ∀ h f, s.handles.lookup h = some f → f ≤ back.id) ∨
      ((∀ h, s.handles.lookup h = none) ∧ back.path_ = [T.root]))
  unaffected : (s.top T).handles = s.handles ∧ ∀ h, (s.top T).location h = s.location h

theorem Sound.focusConsistent (hs : s.Sound T) : FocusConsistent T s where
  on_stack h f hlookup := by
    obtain ⟨fr, hfr, hid, -⟩ := hs.exists_frame hlookup
    exact ⟨fr, hfr, hid⟩
  ref_count fr hfr := by
    rw [hs.counted fr hfr, refs, countP_eq_length_filter]
  current := by
    obtain ⟨back, below, hback, ⟨hmem, hused⟩ | ⟨hnone, hroot⟩⟩ := hs.top.current
    · refine ⟨back, below, hback, .inl ⟨hmem, (hs.refcount_ne_zero hmem).mp hused, fun h f hlookup => ?_⟩⟩
      -- the frame is on the stack still, and frames further down are older
      rw [← hs.top.handles] at hlookup
      have hordered := hs.top.sound.ordered
      have hmem := hs.top.sound.referred h f hlookup
      rw [ids, hback] at hordered hmem
      rcases mem_cons.mp hmem with rfl | hbelow
      · exact le_rfl
      · exact Nat.le_of_lt ((pairwise_cons.mp hordered).1 f hbelow)
    · exact ⟨back, below, hback, .inr ⟨hnone, hroot⟩⟩
  unaffected := ⟨hs.top.handles, hs.top.location hs⟩

/-- **The query focus in all runs**: the stack is consistent in each state reached, and each
operation performed there does what it should do; when it raises, the current path and all locations
are as before. -/
theorem focus_consistent (hreach : (focusMachine ν T).Reachable s) :
    FocusConsistent T s ∧ (∀ a : Action ν P, a.Applicable s →
      ∃ s' raised, s.perform T a = some (s', raised)) ∧
      ∀ a s' raised, s.perform T a = some (s', raised) →
        StepSound T s a s' raised ∧
          (raised = true → currentPath T s' = currentPath T s ∧ ∀ h, s'.location h = s.location h) := by
  have hinvariant : (focusMachine ν T).Invariant (Sound T) := by
    refine ⟨?_, fun t a t' ht hstep => (ht.perform hstep).1⟩
    rintro t rfl
    exact sound_initial
  have hs : s.Sound T := hinvariant.reachable hreach
  refine ⟨hs.focusConsistent, fun a ha => hs.exists_perform ha, fun a s' raised hperform => ?_⟩
  have hstep := (hs.perform hperform).2
  refine ⟨hstep, fun hraised => ?_⟩
  obtain rfl := hstep.unchanged hraised
  exact ⟨rfl, fun _ => rfl⟩

/-- Three scopes, one within the other. -/
def threeScopes : PlacementTree ℕ where
  root := 0
  getScope p := if p ≤ 2 then some (p - 1) else none
  depth p := p
  getScope_root := rfl
  depth_root := rfl
  getScope_eq := by
    intro p scope h
    split at h
    · cases h
      by_cases hp : p = 0
      · exact .inl hp
      · exact .inr ⟨by omega, by rw [if_pos (by omega)]; rfl⟩
    · cases h

/-- A second focus is pushed while the first handle is destroyed below it, and the second one fails
to shift. -/
theorem focus_consistent_buried : ∃ s : FocusState ℕ ℕ, s.location 1 = some [0, 1, 2] ∧ s.handles.lookup 0 = none ∧
    s.paths_.length = 2 ∧ FocusConsistent threeScopes s := by
  have hrun : (focusMachine ℕ threeScopes).Run (initial threeScopes)
      [(.create 0, false), (.shift 0 1, false), (.pushTo 1 2, false), (.destroy 0, false),
      (.shift 1 7, true)] _ :=
    .cons rfl (.cons rfl (.cons rfl (.cons rfl (.cons rfl (.nil _)))))
  exact ⟨_, rfl, rfl, rfl, (focus_consistent ⟨_, _, rfl, hrun⟩).1⟩

end FocusState

end Lumiera.Steam.MObject.Session
