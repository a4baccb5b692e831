import Mathlib.Data.List.Count
import Lumiera.Lib.Diff.TreeDiffNoLoss

/-! # No duplication in a tree diff

An element is moved out of its slot in the old content, so no original element can be in the
resulting collection twice (`effect_occurrences`). The slot is left with a moved-from leftover,
which the mutator does not tell from an element: a leftover gets into the result when a further
`find` or `pick` matches it, or when an `after` runs over its slot. This can be told from the
verbs and the collection given: messages which spare the places of elements fetched before
(`TreeDiffScopes.Spared`) yield a result without any leftover (`no_duplication`). -/

namespace Lumiera.Lib.Diff

open List

variable {β Elm : Type}

/-- Whether a traced element is the original with the given number. -/
def Traced.isOriginal (i : Nat) (e : Traced Elm) : Bool := e.src == .original i

/-- All frames of a diff application with their elements numbered as originals. -/
def TreeDiffScopes.trace (s : TreeDiffScopes β Elm) : TreeDiffScopes β (Traced Elm) :=
  ⟨s.current.trace, s.outer.map fun p => (p.1.trace, p.2)⟩

namespace Content

/-- How often an original element occurs, in the resulting collection and in the old content. -/
def occurrences (c : Content (Traced Elm)) (i : Nat) : Nat :=
  c.collection.countP (Traced.isOriginal i) + c.contentBuffer.countP (Traced.isOriginal i)

/-- One of the verbs given so far in this scope fetches by this spec. -/
def Fetches (pre : List TreeDiffStep) (m : GenNode) : Prop :=
  ∃ front post, pre = front ++ .find m :: post ∧ Balanced front

/-- **Sparing the places fetched from**: take any element of the collection `xs` which was named by
a `find` before, and whose place is not passed yet. Then `find` and `pick` do not name what was
left of it, and an `after` which finds an element here does so ahead of its place. -/
def Spares (B : CollectionBinding β Elm) (H : RefHash) (xs : List Elm) (pre : List TreeDiffStep)
    (pos : Nat) (v : TreeDiffStep) : Prop :=
  ∀ j x m, pos ≤ j → xs[j]? = some x → Fetches pre m → B.matchElement m x = true →
    match v with
    | .find n | .pick n => B.matchElement n (B.movedFrom x) = false
    | .after n => TreeMutator.acceptsAll H B n ≠ .ok true ∧
        ((∃ l y, pos ≤ l ∧ xs[l]? = some y ∧
            (B.matchElement n y = true ∨ B.matchElement n (B.movedFrom y) = true)) →
          ∃ l y, pos ≤ l ∧ l < j ∧ xs[l]? = some y ∧ B.matchElement n y = true)
    | _ => True

variable {B : CollectionBinding β Elm} {H : RefHash}

theorem inject_cases (T : ContainerTraits Elm) (c : Content Elm) (e : Elm) :
    (c.inject T e).collection = c.collection ∨
      (c.inject T e).collection.Perm (e :: c.collection) := by
  unfold inject
  cases T.insertPos c.collection e with
  | none => exact .inl rfl
  | some k =>
    by_cases hk : k ≤ c.collection.length
    · exact .inr (perm_insertIdx e c.collection hk)
    · exact .inl (insertIdx_of_length_lt (Nat.lt_of_not_le hk))

theorem countP_inject (T : ContainerTraits Elm) (c : Content Elm) (e : Elm) (p : Elm → Bool) :
    (c.inject T e).collection.countP p ≤ c.collection.countP p + (p e).toNat := by
  rcases inject_cases T c e with h | h
  · rw [h]
    exact Nat.le_add_right _ _
  · rw [h.countP_eq, countP_cons]
    cases p e <;> exact Nat.le_refl _

variable {e : Traced Elm}

theorem occurrences_moveIn (c : Content (Traced Elm)) {j : Nat} (hj : c.contentBuffer[j]? = some e) (i : Nat) :
    (c.moveIn B.traced.trait B.traced.movedFrom j e).occurrences i ≤ c.occurrences i := by
  obtain ⟨hlt, he⟩ := List.getElem?_eq_some_iff.mp hj
  have hcollection := countP_inject B.traced.trait c e (Traced.isOriginal i)
  have hbuffer : (c.contentBuffer.set j (B.traced.movedFrom e)).countP (Traced.isOriginal i)
      = c.contentBuffer.countP (Traced.isOriginal i) - (Traced.isOriginal i e).toNat := by
    rw [countP_set hlt, he]
    cases Traced.isOriginal i e <;> rfl
  have hpos : (Traced.isOriginal i e).toNat ≤ c.contentBuffer.countP (Traced.isOriginal i) := by
    cases horig : Traced.isOriginal i e with
    | false => exact Nat.zero_le _
    | true =>
      exact countP_pos_iff.mpr ⟨e, mem_of_getElem? hj, horig⟩
  show (c.inject _ e).collection.countP _ + (c.contentBuffer.set j _).countP _ ≤ _
  unfold occurrences
  omega

variable {stop : Traced Elm → Bool} {c c' : Content (Traced Elm)}

theorem AcceptRun.occurrences_le (h : AcceptRun B.traced stop c c') (i : Nat) :
    c'.occurrences i ≤ c.occurrences i := by
  induction h with
  | done c => exact Nat.le_refl _
  | next hcurrent _ _ ih => exact Nat.le_trans ih (occurrences_moveIn _ hcurrent i)

theorem occurrences_of_sources {xs : List (Traced Elm)}
    (hsources : xs.map Traced.src = c.collection.map Traced.src) (i : Nat) :
    occurrences { c with collection := xs } i = c.occurrences i := by
  have hcount : ∀ xs : List (Traced Elm), xs.countP (Traced.isOriginal i)
      = (xs.map Traced.src).countP (· == .original i) := by
    intro xs
    rw [countP_map]
    rfl
  show xs.countP _ + c.contentBuffer.countP _ = c.collection.countP _ + c.contentBuffer.countP _
  rw [hcount xs, hcount c.collection, hsources]

variable {v : TreeDiffStep}

/-- No verb multiplies an original element. -/
theorem effect_occurrences (h : c.Effect B.traced H c' v) (i : Nat) : c'.occurrences i ≤ c.occurrences i := by
  cases v with
  | ins n =>
    obtain ⟨e, hbuild, rfl⟩ := h
    have hsrc : Traced.isOriginal i e = false := by
      have hnew : (B.construct n).map (Traced.mk .inserted) = .ok e := hbuild
      cases hplain : B.construct n with
      | error err => rw [hplain] at hnew; cases hnew
      | ok x => rw [hplain] at hnew; cases hnew; rfl
    have hcollection := countP_inject B.traced.trait c e (Traced.isOriginal i)
    rw [hsrc] at hcollection
    exact Nat.add_le_add_right hcollection _
  | del n => obtain ⟨e, -, -, rfl⟩ := h; exact Nat.le_refl _
  | pick n => obtain ⟨e, hcurrent, -, rfl⟩ := h; exact occurrences_moveIn c hcurrent i
  | find n => obtain ⟨l, e, -, hl, -, rfl⟩ := h; exact occurrences_moveIn c hl i
  | skip n => obtain ⟨e, -, rfl⟩ := h; exact Nat.le_refl _
  | after n =>
    rcases h with ⟨-, hrun⟩ | ⟨c₁, e, hrun, hcurrent, -, rfl⟩
    · exact hrun.occurrences_le i
    · exact Nat.le_trans (occurrences_moveIn c₁ hcurrent i) (hrun.occurrences_le i)
  | set n =>
    obtain ⟨l, e, e', hl, hassign, rfl⟩ := h
    exact Nat.le_of_eq (occurrences_of_sources (sources_set hl (assign_src hassign)) i)
  | «mut» n => cases h
  | emu n => cases h

theorem altered_occurrences (h : TreeMutator.Altered B.traced c c') (i : Nat) :
    c'.occurrences i = c.occurrences i := by
  rcases h with rfl | ⟨l, sub, rfl⟩
  · rfl
  · exact occurrences_of_sources (sources_writeBack _ _ _) i

theorem countP_traceFrom (start : Nat) (xs : List Elm) (i : Nat) :
    (traceFrom start xs).countP (Traced.isOriginal i) ≤ 1 ∧
      (i < start → (traceFrom start xs).countP (Traced.isOriginal i) = 0) := by
  induction xs generalizing start with
  | nil => exact ⟨Nat.zero_le _, fun _ => rfl⟩
  | cons x xs ih =>
    obtain ⟨hle, hzero⟩ := ih (start + 1)
    have hcons : (traceFrom start (x :: xs)).countP (Traced.isOriginal i)
        = (traceFrom (start + 1) xs).countP (Traced.isOriginal i)
          + if start = i then 1 else 0 := by
      show (Traced.mk (.original start) x :: traceFrom (start + 1) xs).countP _ = _
      by_cases hi : start = i
      · simp [Traced.isOriginal, hi]
      · simp [Traced.isOriginal, hi]
    rw [hcons]
    by_cases hi : start = i
    · rw [if_pos hi, hzero (by omega)]
      exact ⟨Nat.le_refl _, fun hlt => absurd hi (Nat.ne_of_gt hlt)⟩
    · rw [if_neg hi]
      exact ⟨hle, fun hlt => hzero (Nat.lt_succ_of_lt hlt)⟩

/-! ## Leftovers -/

/-- Whether the resulting collection is free of leftovers. -/
def NoLeftover (c : Content (Traced Elm)) : Prop := ∀ e ∈ c.collection, e.src ≠ .leftover

theorem NoLeftover.inject {T : ContainerTraits (Traced Elm)} (h : c.NoLeftover) (he : e.src ≠ .leftover) :
    (c.inject T e).NoLeftover := by
  intro x hx
  rcases inject_cases T c e with hsame | hperm
  · rw [hsame] at hx
    exact h x hx
  · rcases mem_cons.mp (hperm.mem_iff.mp hx) with rfl | hx
    · exact he
    · exact h x hx

theorem NoLeftover.of_sources (h : c.NoLeftover)
    (hsources : c'.collection.map Traced.src = c.collection.map Traced.src) : c'.NoLeftover := by
  intro e he hsrc
  have hmem : Source.leftover ∈ c.collection.map Traced.src := by
    rw [← hsources]
    exact mem_map.mpr ⟨e, he, hsrc⟩
  obtain ⟨e', he', hsrc'⟩ := mem_map.mp hmem
  exact h e' he' hsrc'

/-- The leftovers waiting lie behind an element which meets `stop`. -/
def StopsBefore (stop : Traced Elm → Bool) (c : Content (Traced Elm)) : Prop :=
  ∀ j e, c.pos ≤ j → c.contentBuffer[j]? = some e → e.src = .leftover →
    ∃ l x, c.pos ≤ l ∧ l < j ∧ c.contentBuffer[l]? = some x ∧ stop x = true

theorem StopsBefore.head (h : c.StopsBefore stop) (hcurrent : c.current = some e) : e.src ≠ .leftover := by
  intro hsrc
  obtain ⟨l, x, hpos, hlt, -, -⟩ := h c.pos e (Nat.le_refl _) hcurrent hsrc
  omega

/-! ## The slots of the old content -/

/-- **Each slot holds what it held at first, or what was left of this element**; in the latter case
it was fetched by one of the verbs so far, unless the slot is passed already. -/
def Tracks (B : CollectionBinding β Elm) (xs : List Elm) (pre : List TreeDiffStep)
    (c : Content (Traced Elm)) : Prop :=
  ∀ j : Nat, c.contentBuffer[j]? = (traceFrom 0 xs)[j]? ∨
    ∃ x, xs[j]? = some x ∧ c.contentBuffer[j]? = some ⟨.leftover, B.movedFrom x⟩ ∧
      (c.pos ≤ j → ∃ m, Fetches pre m ∧ B.matchElement m x = true)

variable {xs : List Elm} {pre more : List TreeDiffStep} {j : Nat}

theorem Fetches.append {m : GenNode} (h : Fetches pre m) (more : List TreeDiffStep) : Fetches (pre ++ more) m := by
  obtain ⟨front, post, rfl, hfront⟩ := h
  exact ⟨front, post ++ more, by rw [append_assoc, cons_append], hfront⟩

theorem getElem?_traceFrom_eq (hj : (traceFrom 0 xs)[j]? = some e) : xs[j]? = some e.elm ∧ e.src ≠ .leftover := by
  constructor
  · have helm := congrArg (Option.map Traced.elm) hj
    rwa [← getElem?_map, map_elm_traceFrom] at helm
  · obtain ⟨q, -, rfl⟩ := mem_map.mp (mem_of_getElem? hj)
    intro hsrc
    cases hsrc

theorem Tracks.original (h : Tracks B xs pre c) (hj : c.contentBuffer[j]? = some e) (hsrc : e.src ≠ .leftover) :
    xs[j]? = some e.elm := by
  rcases h j with hsame | ⟨x, -, hleft, -⟩
  · exact (getElem?_traceFrom_eq (hsame ▸ hj)).1
  · rw [hj] at hleft
    exact absurd (congrArg Traced.src (Option.some.inj hleft)) hsrc

theorem Tracks.waiting (h : Tracks B xs pre c) (hpos : c.pos ≤ j) (hj : c.contentBuffer[j]? = some e)
    (hsrc : e.src = .leftover) : ∃ x m, xs[j]? = some x ∧ e.elm = B.movedFrom x ∧ Fetches pre m ∧
      B.matchElement m x = true := by
  rcases h j with hsame | ⟨x, hx, hleft, hfetched⟩
  · exact absurd hsrc (getElem?_traceFrom_eq (hsame ▸ hj)).2
  · obtain ⟨m, hm, hmatch⟩ := hfetched hpos
    rw [hj] at hleft
    exact ⟨x, m, hx, congrArg Traced.elm (Option.some.inj hleft), hm, hmatch⟩

theorem Tracks.later (h : Tracks B xs pre c) (hbuffer : c'.contentBuffer = c.contentBuffer)
    (hpos : c.pos ≤ c'.pos) : Tracks B xs (pre ++ more) c' := by
  intro j
  rw [hbuffer]
  refine (h j).imp_right ?_
  rintro ⟨x, hx, hleft, hfetched⟩
  refine ⟨x, hx, hleft, fun hle => ?_⟩
  obtain ⟨m, hm, hmatch⟩ := hfetched (Nat.le_trans hpos hle)
  exact ⟨m, hm.append more, hmatch⟩

/-- An element is moved over, which is still there; then its slot is passed, or it was fetched. -/
theorem Tracks.moved (h : Tracks B xs pre c) {l : Nat} (hl : c.contentBuffer[l]? = some e)
    (hsrc : e.src ≠ .leftover) (hpos : c.pos ≤ c'.pos)
    (hbuffer : c'.contentBuffer = c.contentBuffer.set l (B.traced.movedFrom e))
    (hfetched : c'.pos ≤ l → ∃ m, Fetches (pre ++ more) m ∧ B.matchElement m e.elm = true) :
    Tracks B xs (pre ++ more) c' := by
  intro j
  by_cases hlj : l = j
  · subst hlj
    refine .inr ⟨e.elm, h.original hl hsrc, ?_, hfetched⟩
    rw [hbuffer, getElem?_set_self', hl]
    rfl
  · rw [hbuffer, getElem?_set_ne hlj]
    exact (show Tracks B xs (pre ++ more) { c with pos := c'.pos } from h.later rfl hpos) j

/-! ## Verbs which spare the places fetched from -/

/-- A slot which is matched by a verb sparing those places still holds its element. -/
theorem Tracks.not_leftover (h : Tracks B xs pre c) {n : GenNode} (hspares : Spares B H xs pre c.pos (.find n))
    {l : Nat} (hpos : c.pos ≤ l) (hl : c.contentBuffer[l]? = some e)
    (hmatch : B.matchElement n e.elm = true) : e.src ≠ .leftover := by
  intro hsrc
  obtain ⟨x, m, hx, helm, hm, hfetched⟩ := h.waiting hpos hl hsrc
  have hno : B.matchElement n (B.movedFrom x) = false := hspares l x m hpos hx hm hfetched
  rw [helm, hno] at hmatch
  cases hmatch

theorem AcceptRun.behind (h : AcceptRun B.traced stop c c') :
    c.pos ≤ c'.pos ∧ ∀ l, c'.pos ≤ l → c'.contentBuffer[l]? = c.contentBuffer[l]? := by
  induction h with
  | done c => exact ⟨Nat.le_refl _, fun _ _ => rfl⟩
  | @next c c' e _ _ _ ih =>
    have hpos : c.pos + 1 ≤ c'.pos := ih.1
    refine ⟨by omega, fun l hl => (ih.2 l hl).trans ?_⟩
    show (c.contentBuffer.set c.pos _)[l]? = _
    rw [getElem?_set_ne (by omega)]

/-- What `after` stops at is still in its place, since there is a first such element. -/
theorem Tracks.stopsBefore (h : Tracks B xs pre c) {n : GenNode} (hspares : Spares B H xs pre c.pos (.after n))
    (hrun : AcceptRun B.traced stop c c') (hcurrent : c'.current = some e)
    (hfound : B.matchElement n e.elm = true) : c.StopsBefore (B.traced.matchElement n) := by
  have hnamed : ∃ l y, c.pos ≤ l ∧ xs[l]? = some y ∧
      (B.matchElement n y = true ∨ B.matchElement n (B.movedFrom y) = true) := by
    obtain ⟨hpos, hbehind⟩ := hrun.behind
    have hslot : c.contentBuffer[c'.pos]? = some e := (hbehind _ (Nat.le_refl _)).symm.trans hcurrent
    by_cases hsrc : e.src = .leftover
    · obtain ⟨x, -, hx, helm, -⟩ := h.waiting hpos hslot hsrc
      exact ⟨_, x, hpos, hx, .inr (helm ▸ hfound)⟩
    · exact ⟨_, _, hpos, h.original hslot hsrc, .inl hfound⟩
  intro j
  induction j using Nat.strongRecOn with
  | ind j ih =>
    intro e hpos hj hsrc
    obtain ⟨x, m, hx, -, hm, hfetched⟩ := h.waiting hpos hj hsrc
    obtain ⟨l, y, hposl, hlt, hy, hmatch⟩ := (hspares j x m hpos hx hm hfetched).2 hnamed
    rcases h l with hsame | ⟨z, -, hleft, -⟩
    · have hyt : ((traceFrom 0 xs)[l]?).map Traced.elm = some y := by
        rw [← getElem?_map, map_elm_traceFrom, hy]
      obtain ⟨e', he', helm⟩ := Option.map_eq_some_iff.mp hyt
      refine ⟨l, e', hposl, hlt, hsame.trans he', ?_⟩
      show B.matchElement n e'.elm = true
      rw [helm, hmatch]
    · obtain ⟨l', y', hpos', hlt', hy', hstop⟩ := ih l hlt _ hposl hleft rfl
      exact ⟨l', y', hpos', Nat.lt_trans hlt' hlt, hy', hstop⟩

theorem AcceptRun.noLeftover (h : AcceptRun B.traced stop c c') (hclear : c.NoLeftover) (hstops : c.StopsBefore stop)
    (htracks : Tracks B xs pre c) : c'.NoLeftover ∧ c'.StopsBefore stop ∧ Tracks B xs pre c' := by
  induction h with
  | done c => exact ⟨hclear, hstops, htracks⟩
  | @next c c' e hcurrent hgo _ ih =>
    have hsrc := hstops.head hcurrent
    have hmoved : Tracks B xs (pre ++ []) (c.accept B.traced e) :=
      htracks.moved hcurrent hsrc (Nat.le_succ _) rfl fun hle => absurd hle (Nat.not_succ_le_self _)
    rw [append_nil] at hmoved
    refine ih (hclear.inject hsrc) ?_ hmoved
    intro j x hpos hx hsrc
    have hj : c.pos + 1 ≤ j := hpos
    -- slots behind the current one are as before
    have hslot : ∀ l, c.pos + 1 ≤ l → (c.accept B.traced e).contentBuffer[l]?
        = c.contentBuffer[l]? := by
      intro l hl
      show (c.contentBuffer.set c.pos _)[l]? = _
      rw [getElem?_set_ne (by omega)]
    rw [hslot j hj] at hx
    obtain ⟨l, y, hl, hlt, hy, hstop⟩ := hstops j x (by omega) hx hsrc
    have hne : c.pos ≠ l := by
      intro heq
      rw [← heq] at hy
      have hey : some e = some y := hcurrent.symm.trans hy
      rw [← Option.some.inj hey, hgo] at hstop
      cases hstop
    refine ⟨l, y, ?_, hlt, ?_, hstop⟩
    · show c.pos + 1 ≤ l
      omega
    · rw [hslot l (by omega), hy]

/-- **A verb which spares the places fetched from brings no leftover into the result**, and keeps
track of the slots. -/
theorem effect_noLeftover (h : c.Effect B.traced H c' v) (hpre : Balanced pre) (hspares : Spares B H xs pre c.pos v)
    (hclear : c.NoLeftover) (htracks : Tracks B xs pre c) : c'.NoLeftover ∧ Tracks B xs (pre ++ [v]) c' := by
  cases v with
  | ins n =>
    obtain ⟨e, hbuild, rfl⟩ := h
    refine ⟨hclear.inject ?_, htracks.later rfl (Nat.le_refl _)⟩
    have hnew : (B.construct n).map (Traced.mk .inserted) = .ok e := hbuild
    cases hplain : B.construct n with
    | error err => rw [hplain] at hnew; cases hnew
    | ok x =>
      rw [hplain] at hnew
      cases hnew
      intro hsrc
      cases hsrc
  | del n => obtain ⟨e, -, -, rfl⟩ := h; exact ⟨hclear, htracks.later rfl (Nat.le_succ _)⟩
  | pick n =>
    obtain ⟨e, hcurrent, hmatch, rfl⟩ := h
    have hsrc := htracks.not_leftover (H := H) hspares (Nat.le_refl _) hcurrent hmatch
    exact ⟨hclear.inject hsrc, htracks.moved hcurrent hsrc (Nat.le_succ _) rfl fun hle =>
      absurd hle (Nat.not_succ_le_self _)⟩
  | find n =>
    obtain ⟨l, e, hpos, hl, hmatch, rfl⟩ := h
    have hsrc := htracks.not_leftover hspares hpos hl hmatch
    exact ⟨hclear.inject hsrc, htracks.moved hl hsrc (Nat.le_refl _) rfl fun _ =>
      ⟨n, ⟨pre, [], rfl, hpre⟩, hmatch⟩⟩
  | skip n => obtain ⟨e, -, rfl⟩ := h; exact ⟨hclear, htracks.later rfl (Nat.le_succ _)⟩
  | after n =>
    rcases h with ⟨hall, hrun⟩ | ⟨c₁, e, hrun, hcurrent, hfound, rfl⟩
    · obtain ⟨hclear', -, htracks'⟩ := hrun.noLeftover hclear (fun j e hpos hj hsrc => by
        obtain ⟨x, m, hx, -, hm, hfetched⟩ := htracks.waiting hpos hj hsrc
        exact absurd hall (hspares j x m hpos hx hm hfetched).1) htracks
      exact ⟨hclear', htracks'.later rfl (Nat.le_refl _)⟩
    · obtain ⟨hclear₁, hstops₁, htracks₁⟩ := hrun.noLeftover hclear
        (htracks.stopsBefore hspares hrun hcurrent hfound) htracks
      have hsrc := hstops₁.head hcurrent
      exact ⟨hclear₁.inject hsrc, htracks₁.moved hcurrent hsrc (Nat.le_succ _) rfl fun hle =>
        absurd hle (Nat.not_succ_le_self _)⟩
  | set n =>
    obtain ⟨l, e, e', hl, hassign, rfl⟩ := h
    exact ⟨hclear.of_sources (sources_set hl (assign_src hassign)), htracks.later rfl (Nat.le_refl _)⟩
  | «mut» n => cases h
  | emu n => cases h

end Content

/-! ## The course of a whole scope -/

theorem TreeMutator.layers_trace (m : TreeMutator β Elm) :
    m.trace.layers = m.layers.map fun l => (l.1, l.2.trace) := by
  induction m with
  | base => rfl
  | childCollection b c par ih => exact congrArg ((b, c.trace) :: ·) ih
  | objectTypeHandler t par ih => exact ih

theorem TreeDiffScopes.map_elm_trace (s : TreeDiffScopes β Elm) : s.trace.map Traced.elm = s := by
  obtain ⟨current, outer⟩ := s
  have houter : (outer.map fun p => (p.1.trace, p.2)).map
      (fun p : TreeMutator β (Traced Elm) × TreeMutator.Locus => (p.1.map Traced.elm, p.2))
      = outer := by
    rw [map_map]
    have hid : ((fun p : TreeMutator β (Traced Elm) × TreeMutator.Locus =>
        (p.1.map Traced.elm, p.2)) ∘ fun p : TreeMutator β Elm × TreeMutator.Locus =>
        (p.1.trace, p.2)) = id := by
      funext p
      exact Prod.ext (TreeMutator.map_elm_trace p.1) rfl
    rw [hid, map_id]
  show TreeDiffScopes.mk (current.trace.map Traced.elm) _ = _
  rw [TreeMutator.map_elm_trace]
  exact congrArg (TreeDiffScopes.mk current) houter

theorem TreeMutator.layers_map {Elm' : Type} (f : Elm → Elm') (m : TreeMutator β Elm) :
    (m.map f).layers = m.layers.map fun l => (l.1, l.2.map f) := by
  induction m with
  | base => rfl
  | childCollection b c par ih => exact congrArg ((b, c.map f) :: ·) ih
  | objectTypeHandler t par ih => exact ih

/-- **All verbs of a scope spare the places fetched from.** The layer `k` is bound to the
collection `xs`. -/
def TreeDiffScopes.Spared (B : β → CollectionBinding β Elm) (H : RefHash) (s : TreeDiffScopes β Elm)
    (k : Nat) (b : β) (xs : List Elm) (body : List TreeDiffStep) : Prop :=
  ∀ pre v post s₁ c₁, body = pre ++ v :: post → Balanced pre → steps B H s pre = .ok s₁ →
    s₁.current.layers[k]? = some (b, c₁) → Content.Spares (B b) H xs pre c₁.pos v

theorem TreeDiffScopes.Spared.of_append {B : β → CollectionBinding β Elm} {H : RefHash}
    {s : TreeDiffScopes β Elm} {k : Nat} {b : β} {xs : List Elm} {body more : List TreeDiffStep}
    (h : Spared B H s k b xs (body ++ more)) : Spared B H s k b xs body := by
  rintro pre v post s₁ c₁ rfl
  exact h pre v (post ++ more) s₁ c₁ (by rw [append_assoc, cons_append])

/-- **No duplication.** Take any layer bound to a collection `xs` whose scope was just opened, and
the verbs `body` performed without an error within this scope. Traced from the elements of `xs`,
each original element is at most once in the resulting collection. When all verbs spare the places
of the elements fetched before, there is no leftover in it; moreover, where the matcher tells the
elements of `xs` apart, an element already moved over can be neither found nor picked again. -/
theorem TreeDiffScopes.no_duplication (B : β → CollectionBinding β Elm) (H : RefHash)
    (s s' : TreeDiffScopes β Elm) (k : Nat) (b : β) (xs : List Elm) (body : List TreeDiffStep)
    (hopened : s.current.layers[k]? = some (b, (Content.ofCollection xs).initMutation))
    (hbal : Balanced body) (hrun : steps B H s body = .ok s') :
    ∃ t c, steps (fun b => (B b).traced) H s.trace body = .ok t ∧ t.map Traced.elm = s' ∧
      t.current.layers[k]? = some (b, c) ∧
      (∀ i, c.collection.countP (Traced.isOriginal i) ≤ 1) ∧
      (Spared B H s k b xs body → (∀ e ∈ c.collection, e.src ≠ .leftover) ∧
        ((∀ (n : GenNode) (i j : Nat) (x y : Elm), xs[i]? = some x → xs[j]? = some y →
            (B b).matchElement n x = true → (B b).matchElement n y = true → i = j) →
          ∀ (n : GenNode) (j : Nat) (x : Elm), xs[j]? = some x → (B b).matchElement n x = true →
            (∃ e, c.contentBuffer[j]? = some e ∧ e.src = .leftover) →
            Content.Spares (B b) H xs body c.pos (.find n) →
            ∀ (l : Nat) (e : Traced Elm), c.pos ≤ l → c.contentBuffer[l]? = some e →
              (B b).matchElement n e.elm = false)) := by
  -- the traced run behind the plain one
  have hmap := steps_map (fun b => (B b).tracedHom) H s.trace body
  rw [map_elm_trace, hrun] at hmap
  cases htraced : steps (fun b => (B b).traced) H s.trace body with
  | error e => rw [htraced] at hmap; cases hmap
  | ok t =>
    rw [htraced] at hmap
    have hplain : t.map Traced.elm = s' := (Except.ok.inj hmap).symm
    have hlayer : s.trace.current.layers[k]? = some (b, ⟨[], traceFrom 0 xs, 0⟩) := by
      show s.current.trace.layers[k]? = _
      rw [TreeMutator.layers_trace, getElem?_map, hopened]
      rfl
    obtain ⟨c, hk, hcount, hspared⟩ := scope_induction
      (P := fun pre c => (∀ i, c.occurrences i ≤ 1) ∧ (Spared B H s k b xs pre →
        c.NoLeftover ∧ Content.Tracks (B b) xs pre c))
      hbal htraced hlayer
      (by
        refine ⟨fun i => ?_, fun _ => ⟨fun e he => absurd he not_mem_nil, fun j => .inl rfl⟩⟩
        show 0 + (traceFrom 0 xs).countP _ ≤ 1
        rw [Nat.zero_add]
        exact (Content.countP_traceFrom 0 xs i).1)
      (by
        rintro pre v post s₁ c₁ c₂ - hpre hs₁ hk₁ haffected ⟨hcount, hspared⟩
        rcases haffected with rfl | heffect
        · refine ⟨hcount, fun h => ?_⟩
          obtain ⟨hclear, htracks⟩ := hspared h.of_append
          exact ⟨hclear, htracks.later rfl (Nat.le_refl _)⟩
        · refine ⟨fun i => Nat.le_trans (Content.effect_occurrences heffect i) (hcount i), fun h => ?_⟩
          obtain ⟨hclear, htracks⟩ := hspared h.of_append
          -- the position is the one of the plain run
          have hmap₁ := steps_map (fun b => (B b).tracedHom) H s.trace pre
          rw [map_elm_trace, hs₁] at hmap₁
          have hk₁' : (s₁.map Traced.elm).current.layers[k]? = some (b, c₁.map Traced.elm) := by
            show (s₁.current.map Traced.elm).layers[k]? = _
            rw [TreeMutator.layers_map, getElem?_map, hk₁]
            rfl
          exact Content.effect_noLeftover heffect hpre (h pre v [] _ _ rfl hpre hmap₁ hk₁') hclear htracks)
      (by
        rintro pre n inner n' c₁ c₂ - - haltered ⟨hcount, hspared⟩
        refine ⟨fun i => ?_, fun h => ?_⟩
        · rw [Content.altered_occurrences haltered]
          exact hcount i
        · obtain ⟨hclear, htracks⟩ := hspared h.of_append
          rcases haltered with rfl | ⟨l, sub, rfl⟩
          · exact ⟨hclear, htracks.later rfl (Nat.le_refl _)⟩
          · exact ⟨hclear.of_sources (Content.sources_writeBack _ _ _), htracks.later rfl (Nat.le_refl _)⟩)
    refine ⟨t, c, rfl, hplain, hk, fun i => Nat.le_trans (Nat.le_add_right _ _) (hcount i), fun h => ?_⟩
    obtain ⟨hclear, htracks⟩ := hspared h
    refine ⟨hclear, ?_⟩
    rintro hdistinct n j x hx hmatch ⟨e', he', hleft⟩ hspares l e hpos he
    cases hother : (B b).matchElement n e.elm with
    | false => rfl
    | true =>
      -- only the element itself, but this one is gone
      have hsrc := htracks.not_leftover hspares hpos he hother
      have hjl := hdistinct n j l x e.elm hx (htracks.original he hsrc) hmatch hother
      rw [hjl, he] at he'
      exact absurd ((Option.some.inj he') ▸ hleft) hsrc

/-- Reorders the children; the place the second one was fetched from is left to be skipped. -/
def Sample.swap : List TreeDiffStep :=
  [.after Sample.hashes.refATTRIBS, .find Sample.nested, .pick (Sample.child 2 "x")]

/-- The child picked is told apart from what was left of the other one. -/
theorem Sample.spares_swap {pre : List TreeDiffStep} {pos : Nat}
    (hfetches : ∀ m, Content.Fetches pre m → m = Sample.nested) :
    Content.Spares (genNodeBinding Sample.hashes GenNode.movedFrom .children) Sample.hashes
      Sample.record.children pre pos (.find (Sample.child 2 "x")) := by
  intro j x m _ hx hm hmatch
  rw [hfetches m hm] at hmatch
  show (Sample.child 2 "x").matchNode (GenNode.movedFrom x) = false
  rcases j with _ | _ | j
  · cases hx
    exact absurd hmatch (by decide)
  · cases hx
    decide
  · cases hx

theorem Sample.fetches_swap {pre more : List TreeDiffStep} (hswap : Sample.swap = pre ++ more) (m : GenNode)
    (hm : Content.Fetches pre m) : m = Sample.nested ∧ ∀ v ∈ more, v = .pick (Sample.child 2 "x") := by
  obtain ⟨front, rest, rfl, -⟩ := hm
  rcases front with _ | ⟨a, _ | ⟨b, _ | ⟨d, front⟩⟩⟩
  case cons.nil =>
    obtain ⟨hfind, hbehind⟩ := List.cons.inj (List.cons.inj hswap).2
    cases hfind
    refine ⟨rfl, fun v hv => ?_⟩
    have hlast : v ∈ [TreeDiffStep.pick (Sample.child 2 "x")] := hbehind ▸ mem_append_right rest hv
    exact mem_singleton.mp hlast
  all_goals simp [Sample.swap] at hswap

theorem Sample.swap_spared : TreeDiffScopes.Spared (genNodeBinding Sample.hashes GenNode.movedFrom)
    Sample.hashes (TreeDiffScopes.initDiffApplication Sample.record.buildMutator) 1 .children
      Sample.record.children Sample.swap := by
  intro pre v post s₁ c₁ hbody _ _ _ j x m hpos hx hm hmatch
  obtain ⟨-, hlast⟩ := Sample.fetches_swap hbody m hm
  obtain rfl := hlast v mem_cons_self
  exact Sample.spares_swap (fun m hm => (Sample.fetches_swap hbody m hm).1) j x m hpos hx hm hmatch

/-- Reordering the children of a record moves each of them once and leaves no leftover in the
result; the child picked can not be found again, while the other one is still to be skipped. -/
theorem TreeDiffScopes.no_duplication_swap :
    ∃ (t : TreeDiffScopes RecordScope (Traced GenNode)) (c : Content (Traced GenNode)),
      t.current.layers[1]? = some (.children, c) ∧ c.pos = 1 ∧
      (∀ i, c.collection.countP (Traced.isOriginal i) ≤ 1) ∧ (∀ e ∈ c.collection, e.src ≠ .leftover) ∧
      ∀ (l : Nat) (e : Traced GenNode), c.pos ≤ l → c.contentBuffer[l]? = some e →
        (Sample.child 2 "x").matchNode e.elm = false := by
  obtain ⟨t, c, ht, -, hlayer, hcount, hspared⟩ := no_duplication
    (genNodeBinding Sample.hashes GenNode.movedFrom) Sample.hashes
    (initDiffApplication Sample.record.buildMutator) _ 1 .children Sample.record.children
    Sample.swap rfl (balanced_of_steps (B := genNodeBinding Sample.hashes GenNode.movedFrom)
      (H := Sample.hashes) (s := initDiffApplication Sample.record.buildMutator)
      rfl rfl (by decide)).1 rfl
  obtain ⟨hclear, hgone⟩ := hspared Sample.swap_spared
  have hcontent : ((steps (fun b => (genNodeBinding Sample.hashes GenNode.movedFrom b).traced) Sample.hashes
      (initDiffApplication Sample.record.buildMutator).trace Sample.swap).toOption.bind fun t =>
        t.current.layers[1]?).map (fun p => (p.2.pos, p.2.contentBuffer.map Traced.src)) =
          some (1, [.leftover, .leftover]) := by
    decide
  rw [ht] at hcontent
  have hc : (t.current.layers[1]?).map (fun p => (p.2.pos, p.2.contentBuffer.map Traced.src)) =
      some (1, [.leftover, .leftover]) := hcontent
  rw [hlayer] at hc
  obtain ⟨hpos, hbuffer⟩ := Prod.mk.inj (Option.some.inj hc)
  have hdistinct : ∀ (n : GenNode) (i j : Nat) (x y : GenNode), Sample.record.children[i]? = some x →
      Sample.record.children[j]? = some y → n.matchNode x = true → n.matchNode y = true → i = j := by
    intro n i j x y hi hj hx hy
    have hsame : x.idi.hash = y.idi.hash := (eq_of_beq hx).symm.trans (eq_of_beq hy)
    rcases i with _ | _ | i <;> rcases j with _ | _ | j <;> cases hi <;> cases hj <;> first
      | rfl
      | exact absurd hsame (by decide)
  refine ⟨t, c, hlayer, hpos, hcount, hclear, hgone hdistinct (Sample.child 2 "x") 0 _ rfl (by decide) ?_ ?_⟩
  · have hfirst : (c.contentBuffer.map Traced.src)[0]? = some .leftover := by rw [hbuffer]; rfl
    rw [getElem?_map] at hfirst
    obtain ⟨e, he, hsrc⟩ := Option.map_eq_some_iff.mp hfirst
    exact ⟨e, he, hsrc⟩
  · exact Sample.spares_swap fun m hm => (Sample.fetches_swap (append_nil _).symm m hm).1

/-- Finds an element twice and then accepts all further ones. -/
def Sample.greedy : List TreeDiffStep :=
  [.after Sample.hashes.refATTRIBS, .find (Sample.child 2 "x"), .find (Sample.child 2 "x"),
    .after Sample.hashes.refEND]

/-- **Leftovers in the result**: the children are told apart by their identities, and the message
is applied without an error; yet the second `find` gets hold of what the first one left, and
`after` accepts the slot once more. -/
theorem TreeDiffScopes.greedy_duplicates :
    (Sample.record.children.map fun n => n.idi.hash) = [2, 3] ∧
    ((Sample.record.applyDiff Sample.hashes GenNode.movedFrom Sample.greedy).toOption.map
      fun r => r.children.map fun n => (n.idi.hash, n.idi.sym))
      = some [(2, "_CHILD_x"), (2, ""), (2, ""), (3, "_CHILD_sub")] := by
  constructor
  · decide
  · decide

end Lumiera.Lib.Diff
