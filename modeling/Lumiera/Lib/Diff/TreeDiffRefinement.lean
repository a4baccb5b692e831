import Lumiera.Lib.Diff.TreeDiffLayers
import Lumiera.Lib.Diff.TreeDiffNoLoss

/-! # Applying a tree diff against its meaning

The binding of a record consists of two collections, each with a position of its own, while the
meaning of a diff knows one sequence, the attributes first. -/

namespace Lumiera.Lib.Diff

open List

/-! ## The content of a vector -/

namespace Content

/-- The old content from the current position on. -/
def rest (c : Content GenNode) : List GenNode := c.contentBuffer.drop c.pos

variable {c : Content GenNode} {husk : GenNode → GenNode}

theorem current_eq : c.current = c.rest.head? := by
  rw [rest, head?_drop]
  rfl

theorem pending_eq : c.pending = c.rest.length := length_drop.symm

@[simp] theorem rest_advance : c.advance.rest = c.rest.tail := tail_drop.symm

@[simp] theorem collection_advance : c.advance.collection = c.collection := rfl

theorem inject_vector (e : GenNode) :
    c.inject .vector e = { c with collection := c.collection ++ [e] } := by
  unfold inject
  simp [ContainerTraits.vector]

@[simp] theorem rest_inject (e : GenNode) : (c.inject .vector e).rest = c.rest := rfl

@[simp] theorem collection_inject (e : GenNode) : (c.inject .vector e).collection = c.collection ++ [e] := by
  rw [inject_vector]

@[simp] theorem collection_moveIn (i : Nat) (e : GenNode) :
    (c.moveIn .vector husk i e).collection = c.collection ++ [e] := collection_inject e

@[simp] theorem rest_moveIn (k : Nat) (e : GenNode) :
    (c.moveIn .vector husk (k + c.pos) e).rest = c.rest.set k (husk e) := by
  show ((c.contentBuffer.set (k + c.pos) (husk e)).drop c.pos) = _
  rw [drop_set, if_neg (by omega), Nat.add_sub_cancel]
  rfl

theorem rest_accept (e : GenNode) : (c.moveIn .vector husk c.pos e).advance.rest = c.rest.tail := by
  have hmoved : (c.moveIn .vector husk (0 + c.pos) e).rest = c.rest.set 0 (husk e) :=
    rest_moveIn 0 e
  rw [Nat.zero_add] at hmoved
  rw [rest_advance, hmoved]
  cases c.rest with
  | nil => rfl
  | cons x xs => rfl

theorem acceptWhileNot_all (husk : GenNode → GenNode) (c : Content GenNode) (n : Nat) (hn : c.rest.length ≤ n) :
    (c.acceptWhileNot .vector husk (fun _ => false) n).collection = c.collection ++ c.rest ∧
    (c.acceptWhileNot .vector husk (fun _ => false) n).rest = [] := by
  induction n generalizing c with
  | zero =>
    have hnil : c.rest = [] := eq_nil_of_length_eq_zero (Nat.le_zero.mp hn)
    rw [hnil, append_nil]
    exact ⟨rfl, hnil⟩
  | succ n ih =>
    unfold acceptWhileNot
    rw [current_eq]
    cases hrest : c.rest with
    | nil =>
      rw [append_nil]
      exact ⟨rfl, hrest⟩
    | cons e es =>
      have htail : (c.moveIn .vector husk c.pos e).advance.rest = c.rest.tail := rest_accept e
      rw [hrest] at htail hn
      have hstep := ih (c.moveIn .vector husk c.pos e).advance
        (by rw [htail]; exact Nat.le_of_succ_le_succ hn)
      rw [htail, collection_advance, collection_moveIn, append_assoc] at hstep
      exact hstep

end Content

/-! ## A collection and the sequence it stands for -/

/-- What is found in a slot of the old content. -/
def Slot.left (husk : GenNode → GenNode) : Slot → GenNode
  | still n => n
  | fetched n => husk n

namespace Sequence

variable {husk : GenNode → GenNode}

/-- The content of a collection stands for a sequence being rearranged. -/
structure Represents (husk : GenNode → GenNode) (c : Content GenNode) (s : Sequence) : Prop where
  collection : c.collection = s.accepted
  rest : c.rest = s.ahead.map (Slot.left husk)

/-- The content falls behind the sequence: elements accepted already are still pending. -/
structure Lags (c : Content GenNode) (s : Sequence) : Prop where
  collection : c.collection ++ c.rest = s.accepted
  ahead : s.ahead = []

variable {c : Content GenNode} {s s' : Sequence} {n : GenNode}

theorem Represents.insert (h : Represents husk c s) (n : GenNode) :
    Represents husk (c.inject .vector n) (s.insert n) := by
  constructor
  · rw [Content.collection_inject, h.collection]
    rfl
  · rw [Content.rest_inject, h.rest]
    rfl

theorem Represents.delete (h : Represents husk c s) (hs : s.delete n = some s') :
    ∃ e, c.current = some e ∧ n.matchNode e = true ∧ Represents husk c.advance s' := by
  unfold Sequence.delete at hs
  have hcurrent := Content.current_eq (c := c)
  rw [h.rest] at hcurrent
  split at hs
  · rename_i e rest hahead
    rw [hahead] at hcurrent
    by_cases hmatch : n.matchNode e = true
    · rw [if_pos hmatch] at hs
      cases hs
      refine ⟨e, hcurrent, hmatch, h.collection, ?_⟩
      rw [Content.rest_advance, h.rest, hahead]
      rfl
    · rw [if_neg hmatch] at hs
      cases hs
  · cases hs

theorem Represents.pick (h : Represents husk c s) (hs : s.pick n = some s') : ∃ e, c.current = some e ∧
    n.matchNode e = true ∧ Represents husk (c.moveIn .vector husk c.pos e).advance s' := by
  unfold Sequence.pick at hs
  have hcurrent := Content.current_eq (c := c)
  rw [h.rest] at hcurrent
  split at hs
  · rename_i e rest hahead
    rw [hahead] at hcurrent
    by_cases hmatch : n.matchNode e = true
    · rw [if_pos hmatch] at hs
      cases hs
      refine ⟨e, hcurrent, hmatch, ?_, ?_⟩
      · rw [Content.collection_advance, Content.collection_moveIn, h.collection]
      · rw [Content.rest_accept, h.rest, hahead]
        rfl
    · rw [if_neg hmatch] at hs
      cases hs
  · cases hs

theorem Represents.skip (h : Represents husk c s) (hs : s.skip n = some s') :
    ∃ e, c.current = some e ∧ Represents husk c.advance s' := by
  unfold Sequence.skip at hs
  have hcurrent := Content.current_eq (c := c)
  rw [h.rest] at hcurrent
  split at hs
  · rename_i e rest hahead
    rw [hahead] at hcurrent
    by_cases hmatch : n.matchNode e = true
    · rw [if_pos hmatch] at hs
      cases hs
      refine ⟨husk e, hcurrent, h.collection, ?_⟩
      rw [Content.rest_advance, h.rest, hahead]
      rfl
    · rw [if_neg hmatch] at hs
      cases hs
  · cases hs

/-- Whether searching for an element comes first upon a slot it was fetched from earlier. -/
def leftoverFirst (n : GenNode) (s : Sequence) : Bool :=
  match s.ahead.find? fun slot => n.matchNode slot.node with
  | some (.fetched _) => true
  | _ => false

/-- Searching the slots for an element of which no leftover comes first. -/
theorem findIdx?_of_fetch (hhusk : ∀ e, (husk e).idi.hash = e.idi.hash) {slots slots' : List Slot} {e : GenNode}
    (h : fetch n slots = some (e, slots')) (hfirst : leftoverFirst n ⟨[], slots⟩ = false) : ∃ k,
    (slots.map (Slot.left husk)).findIdx? n.matchNode = some k ∧ (slots.map (Slot.left husk))[k]? = some e ∧
    slots'.map (Slot.left husk) = (slots.map (Slot.left husk)).set k (husk e) := by
  induction slots generalizing slots' with
  | nil => cases h
  | cons slot slots ih =>
    -- the slot is passed when its element is another one, be it still there or not
    have hpass : ∀ (hother : n.matchNode (slot.left husk) = false)
        (hnode : n.matchNode slot.node = false) (hrest : ∃ rest, fetch n slots = some (e, rest) ∧
          slots' = slot :: rest),
        ∃ k, ((slot :: slots).map (Slot.left husk)).findIdx? n.matchNode = some k ∧
          ((slot :: slots).map (Slot.left husk))[k]? = some e ∧
          slots'.map (Slot.left husk)
            = ((slot :: slots).map (Slot.left husk)).set k (husk e) := by
      rintro hother hnode ⟨rest, hfetch, rfl⟩
      have hfirst' : leftoverFirst n ⟨[], slots⟩ = false := by
        unfold leftoverFirst at hfirst ⊢
        rw [find?_cons_of_neg (by rw [hnode]; exact Bool.false_ne_true)] at hfirst
        exact hfirst
      obtain ⟨k, hk, he, hset⟩ := ih hfetch hfirst'
      refine ⟨k + 1, ?_, he, ?_⟩
      · rw [map_cons, findIdx?_cons, hother, hk]
        rfl
      · rw [map_cons, hset]
        rfl
    cases slot with
    | still x =>
      by_cases hmatch : n.matchNode x = true
      · rw [fetch, if_pos hmatch] at h
        cases h
        refine ⟨0, ?_, rfl, rfl⟩
        rw [map_cons, findIdx?_cons, show n.matchNode (Slot.left husk (.still e)) = true
          from hmatch]
        rfl
      · have hother := Bool.eq_false_iff.mpr hmatch
        rw [fetch, if_neg hmatch] at h
        obtain ⟨found, hfetch, hfound⟩ := Option.map_eq_some_iff.mp h
        cases hfound
        exact hpass hother hother ⟨_, hfetch, rfl⟩
    | fetched x =>
      have hother : n.matchNode x = false := by
        refine Bool.eq_false_iff.mpr fun hmatch => ?_
        unfold leftoverFirst at hfirst
        rw [find?_cons_of_pos (by exact hmatch)] at hfirst
        cases hfirst
      have hleft : n.matchNode (husk x) = false := by
        rw [← hother]
        show (n.idi.hash == (husk x).idi.hash) = (n.idi.hash == x.idi.hash)
        rw [hhusk]
      obtain ⟨found, hfetch, hfound⟩ := Option.map_eq_some_iff.mp h
      cases hfound
      exact hpass hleft hother ⟨_, hfetch, rfl⟩

theorem Represents.find (hhusk : ∀ e, (husk e).idi.hash = e.idi.hash) (h : Represents husk c s)
    (hs : s.find n = some s') (hfirst : s.leftoverFirst n = false) :
    ∃ i e, c.current.isSome = true ∧ Content.search n.matchNode c.contentBuffer c.pos = some i ∧
      c.contentBuffer[i]? = some e ∧ Represents husk (c.moveIn .vector husk i e) s' := by
  obtain ⟨⟨e, slots⟩, hfetch, rfl⟩ := Option.map_eq_some_iff.mp hs
  obtain ⟨k, hk, he, hset⟩ := findIdx?_of_fetch hhusk hfetch hfirst
  rw [← h.rest] at hk he hset
  refine ⟨k + c.pos, e, ?_, ?_, ?_, ?_, ?_⟩
  · rw [Content.current_eq]
    cases hrest : c.rest with
    | nil => rw [hrest] at he; cases he
    | cons x xs => rfl
  · exact Option.map_eq_some_iff.mpr ⟨k, hk, rfl⟩
  · rw [← he, Content.rest, getElem?_drop, Nat.add_comm]
  · rw [Content.collection_moveIn, h.collection]
  · rw [Content.rest_moveIn, ← hset]

theorem eq_of_afterAll (husk : GenNode → GenNode) (hs : s.afterAll = some s') :
    s' = ⟨s.accepted ++ s.ahead.map (Slot.left husk), []⟩ := by
  obtain ⟨accepted, ahead⟩ := s
  induction ahead generalizing accepted with
  | nil =>
    cases hs
    rw [map_nil, append_nil]
  | cons slot slots ih =>
    cases slot with
    | still e =>
      have hrest := ih (accepted ++ [e]) hs
      rw [append_assoc] at hrest
      exact hrest
    | fetched e => cases hs

theorem Represents.afterAll (h : Represents husk c s) (hs : s.afterAll = some s') :
    Represents husk (c.acceptWhileNot .vector husk (fun _ => false) c.pending) s' := by
  obtain ⟨hcollection, hrest⟩ := Content.acceptWhileNot_all husk c c.pending
    (Nat.le_of_eq Content.pending_eq.symm)
  rw [eq_of_afterAll husk hs]
  constructor
  · rw [hcollection, h.collection, h.rest]
  · rw [hrest]
    rfl

theorem Represents.lags (h : Represents husk c s) (hs : s.afterAll = some s') : Lags c s' := by
  rw [eq_of_afterAll husk hs]
  constructor
  · rw [h.collection, h.rest]
  · rfl

theorem Lags.afterAll (husk : GenNode → GenNode) (h : Lags c s) (hs : s.afterAll = some s') :
    Represents husk (c.acceptWhileNot .vector husk (fun _ => false) c.pending) s' ∧ s' = s := by
  obtain ⟨hcollection, hrest⟩ := Content.acceptWhileNot_all husk c c.pending
    (Nat.le_of_eq Content.pending_eq.symm)
  have hs' := eq_of_afterAll husk hs
  rw [h.ahead, map_nil, append_nil] at hs'
  have hsame : s' = s := by
    rw [hs', ← h.ahead]
  rw [hsame]
  refine ⟨⟨?_, ?_⟩, rfl⟩
  · rw [hcollection, h.collection]
  · rw [hrest, h.ahead]
    rfl

theorem Represents.after (h : Represents husk c s) (hs : s.after n = some s') :
    ∃ e, (c.acceptWhileNot .vector husk n.matchNode c.pending).current = some e ∧
      n.matchNode e = true ∧
      Represents husk ((c.acceptWhileNot .vector husk n.matchNode c.pending).moveIn .vector husk
        (c.acceptWhileNot .vector husk n.matchNode c.pending).pos e).advance s' := by
  -- the induction goes over the slots, and there is one pass for each of them
  have hrun : ∀ (slots : List Slot) (accepted : List GenNode) (c : Content GenNode),
      Represents husk c ⟨accepted, slots⟩ →
      acceptUpTo (some n.matchNode) accepted slots = some s' →
      ∃ e, (c.acceptWhileNot .vector husk n.matchNode slots.length).current = some e ∧
        n.matchNode e = true ∧
        Represents husk ((c.acceptWhileNot .vector husk n.matchNode slots.length).moveIn .vector
          husk (c.acceptWhileNot .vector husk n.matchNode slots.length).pos e).advance s' := by
    intro slots
    induction slots with
    | nil =>
      intro accepted c _ hs
      cases hs
    | cons slot slots ih =>
      intro accepted c h hs
      cases slot with
      | fetched e => cases hs
      | still e =>
        have hcurrent : c.current = some e := by
          rw [Content.current_eq, h.rest]
          rfl
        have hnext : Represents husk (c.moveIn .vector husk c.pos e).advance
            ⟨accepted ++ [e], slots⟩ := by
          constructor
          · rw [Content.collection_advance, Content.collection_moveIn, h.collection]
          · rw [Content.rest_accept, h.rest]
            rfl
        rw [acceptUpTo] at hs
        rw [length_cons, Content.acceptWhileNot, hcurrent]
        dsimp only
        by_cases hmatch : n.matchNode e = true
        · rw [if_pos (by exact hmatch)] at hs
          cases hs
          rw [if_pos hmatch]
          exact ⟨e, hcurrent, hmatch, hnext⟩
        · rw [if_neg (by exact hmatch)] at hs
          rw [if_neg hmatch]
          exact ih _ _ hnext hs
  have hpending : c.pending = s.ahead.length := by
    rw [Content.pending_eq, h.rest, length_map]
  rw [hpending]
  exact hrun s.ahead s.accepted c h hs

theorem Represents.locate (h : Represents husk c s) : c.locate .vector n.matchNode = s.designated n := by
  unfold Content.locate designated Content.search
  rw [h.collection]
  cases hacc : s.accepted with
  | nil => rfl
  | cons x xs =>
    have hrecent : ContainerTraits.vector.recentElm (x :: xs) = some xs.length := rfl
    rw [getLast?_eq_getElem?]
    simp [hrecent]

theorem Represents.change {f : GenNode → Option GenNode} (h : Represents husk c s)
    (hs : s.change n f = some s') :
    ∃ i e e', c.locate .vector n.matchNode = some i ∧ c.collection[i]? = some e ∧
      f e = some e' ∧ s' = { s with accepted := s.accepted.set i e' } := by
  rw [h.locate, h.collection]
  obtain ⟨i, hi, hs⟩ := Option.bind_eq_some_iff.mp hs
  obtain ⟨e, he, hs⟩ := Option.bind_eq_some_iff.mp hs
  obtain ⟨e', he', hs⟩ := Option.bind_eq_some_iff.mp hs
  cases hs
  exact ⟨i, e, e', hi, he, he', rfl⟩

theorem Represents.set (h : Represents husk c s) (i : Nat) (e : GenNode) :
    Represents husk { c with collection := c.collection.set i e }
      { s with accepted := s.accepted.set i e } := by
  constructor
  · rw [h.collection]
  · exact h.rest

theorem matchNode_of_designated {i : Nat} {e : GenNode} (hi : s.designated n = some i)
    (he : s.accepted[i]? = some e) : n.matchNode e = true := by
  unfold designated at hi
  by_cases hlast : s.accepted.getLast?.any n.matchNode = true
  · rw [if_pos hlast] at hi
    rw [getLast?_eq_getElem?, Option.some.inj hi, he] at hlast
    exact hlast
  · rw [if_neg hlast] at hi
    obtain ⟨hlt, hmatch, -⟩ := findIdx?_eq_some_iff_getElem.mp hi
    rw [getElem?_eq_getElem hlt] at he
    rw [← Option.some.inj he]
    exact hmatch

end Sequence

/-! ## A record and its draft -/

namespace RecordDraft

/-- **The layers of a record stand for its draft**; the flag tells that `after` has accepted the
attributes in the draft only. -/
structure Represents (husk : GenNode → GenNode) (lag : Bool) (m : RecordContent)
    (d : RecordDraft) : Prop where
  type : m.type = d.type
  attribs : lag = false → Sequence.Represents husk m.attribs d.attribs
  behind : lag = true → Sequence.Lags m.attribs d.attribs
  children : Sequence.Represents husk m.children d.children

variable {H : RefHash} {husk : GenNode → GenNode} {lag : Bool} {m : RecordContent}
  {d d' : RecordDraft} {n : GenNode}

theorem Represents.get (h : Represents husk lag m d) (hlag : (n.isNamed && lag) = false) :
    Sequence.Represents husk (m.get n.scope) (d.get n.scope) := by
  unfold GenNode.scope
  cases hnamed : n.isNamed with
  | true =>
    rw [hnamed] at hlag
    exact h.attribs hlag
  | false => exact h.children

theorem Represents.put (h : Represents husk lag m d) (hlag : (n.isNamed && lag) = false) {c : Content GenNode}
    {s : Sequence} (hs : Sequence.Represents husk c s) : Represents husk lag (m.put c n.scope) (d.put s n.scope) := by
  unfold GenNode.scope
  cases hnamed : n.isNamed with
  | true =>
    rw [hnamed] at hlag
    have hkept : lag = false := hlag
    subst hkept
    exact ⟨h.type, fun _ => hs, fun hbehind => absurd hbehind Bool.false_ne_true, h.children⟩
  | false => exact ⟨h.type, h.attribs, h.behind, hs⟩

theorem represents_ofRecord (husk : GenNode → GenNode) (r : Record) :
    ∃ m : RecordContent, r.buildMutator.init = m.mutator ∧
      Represents husk false m (.ofRecord r) := by
  have hlist : ∀ xs : List GenNode, Sequence.Represents husk
      (Content.ofCollection xs).initMutation (.ofList xs) := by
    intro xs
    refine ⟨rfl, ?_⟩
    show xs.drop 0 = (xs.map Slot.still).map (Slot.left husk)
    rw [map_map]
    exact (map_id xs).symm
  exact ⟨⟨r.type, (Content.ofCollection r.attribs).initMutation,
    (Content.ofCollection r.children).initMutation⟩, rfl,
    ⟨rfl, fun _ => hlist _, fun h => absurd h Bool.false_ne_true, hlist _⟩⟩

theorem Represents.completed (h : Represents husk false m d) {r : Record} (hr : d.completed = some r) :
    m.mutator.completeScope = true ∧ Record.ofMutator m.mutator = r := by
  have hattribs := h.attribs rfl
  unfold RecordDraft.completed at hr
  by_cases hdone : (d.attribs.ahead.isEmpty && d.children.ahead.isEmpty) = true
  · rw [if_pos hdone] at hr
    obtain ⟨hnoattrib, hnochild⟩ := Bool.and_eq_true_iff.mp hdone
    have hend : ∀ {c : Content GenNode} {s : Sequence}, Sequence.Represents husk c s →
        s.ahead.isEmpty = true → c.current.isNone = true := by
      intro c s hs hnil
      rw [Content.current_eq, hs.rest, isEmpty_iff.mp hnil]
      rfl
    constructor
    · show (true && m.children.current.isNone && m.attribs.current.isNone) = true
      rw [hend h.children hnochild, hend hattribs hnoattrib]
      rfl
    · rw [← Option.some.inj hr, ← h.type, ← hattribs.collection, ← h.children.collection]
      rfl
  · rw [if_neg hdone] at hr
    cases hr

theorem of_onElement {f : Sequence → Option Sequence} (h : d.onElement H n f = some d') :
    n.isReserved H = false ∧ ∃ s, f (d.get n.scope) = some s ∧ d' = d.put s n.scope := by
  unfold onElement at h
  by_cases hfree : n.isReserved H = true
  · rw [if_pos hfree] at h
    cases h
  · rw [if_neg hfree] at h
    obtain ⟨s, hs, hd⟩ := Option.map_eq_some_iff.mp h
    exact ⟨Bool.eq_false_iff.mpr hfree, s, hs, hd.symm⟩

end RecordDraft

/-! ## Where the application keeps up -/

/-- Whether a node has the identity of one of the marks. -/
def RefHash.isMark (H : RefHash) (n : GenNode) : Bool :=
  n.matchNode H.refEND || n.matchNode H.refATTRIBS

namespace ScopeVerb

/-- Whether the application does what the verb means: attributes left behind by an earlier `after`
are not mentioned, and `find` does not come first upon a leftover of the same element. -/
def keepsUp (H : RefHash) (v : ScopeVerb) (n : GenNode) (d : RecordDraft) (lag : Bool) : Bool :=
  match v with
  | ins | set => n.isTypeID || !(n.isNamed && lag)
  | find => !(n.isNamed && lag) && !(d.get n.scope).leftoverFirst n
  | after => H.isMark n || !(n.isNamed && lag)
  | del | pick | skip => !(n.isNamed && lag)

/-- Whether attributes are left behind afterwards: by an `after` naming a child, until one with a
mark comes along. -/
def lagAfter (H : RefHash) (v : ScopeVerb) (n : GenNode) (d : RecordDraft) (lag : Bool) : Bool :=
  match v with
  | after => !H.isMark n && (lag || (!n.isNamed && !d.attribs.ahead.isEmpty))
  | _ => lag

end ScopeVerb

/-- The record nested in the element designated. -/
def RecordDraft.nestedIn (n : GenNode) (d : RecordDraft) : Option Record := do
  let i ← (d.get n.scope).designated n
  let e ← (d.get n.scope).accepted[i]?
  e.data.maybeAccessNestedRec

/-- **Where the application of a diff keeps up with its meaning**: with each verb, and no attributes
are left behind at the end of a scope. -/
def TreeDiff.keepsUp (H : RefHash) : TreeDiff → Bool → RecordDraft → Bool
  | done, lag, _ => !lag
  | verb v n rest, lag, d =>
    v.keepsUp H n d lag && (v.perform H n d).all (rest.keepsUp H (v.lagAfter H n d lag))
  | scope n inner m rest, lag, d =>
    !(n.isNamed && lag) && (d.nestedIn n).all (fun r => inner.keepsUp H false (.ofRecord r)) &&
      (d.mutate H n m (inner.interpret H)).all (rest.keepsUp H lag)

/-! ## One verb -/

namespace RecordDraft

variable {H : RefHash} {husk : GenNode → GenNode} {lag : Bool} {m : RecordContent}
  {d d' : RecordDraft} {n : GenNode}

/-- The verb leads the mutator to a state which stands for the given draft. -/
def Reaches (H : RefHash) (husk : GenNode → GenNode) (m : RecordContent) (v : TreeDiffStep) (lag : Bool)
    (d : RecordDraft) : Prop :=
  ∃ m' : RecordContent, TreeDiffScopes.applyTo (genNodeBinding H husk) H m.mutator v = .ok m'.mutator ∧
    Represents husk lag m' d

theorem hasSrc_mutator (h : (m.get n.scope).current.isSome = true) : m.mutator.hasSrc = true := by
  show (m.attribs.current.isSome || (m.children.current.isSome || false)) = true
  unfold GenNode.scope at h
  cases hnamed : n.isNamed with
  | true =>
    rw [hnamed] at h
    rw [show m.attribs.current.isSome = true from h]
    rfl
  | false =>
    rw [hnamed] at h
    rw [show m.children.current.isSome = true from h, Bool.true_or, Bool.or_true]

theorem Represents.setType (h : Represents husk lag m d) (hd : d.setType n = some d') :
    ∃ t, TreeMutator.typeOfSpec n = .ok t ∧ Represents husk lag { m with type := t } d' := by
  unfold RecordDraft.setType at hd
  unfold TreeMutator.typeOfSpec
  cases hdata : n.data with
  | text t =>
    rw [hdata] at hd
    cases hd
    exact ⟨t, rfl, rfl, h.attribs, h.behind, h.children⟩
  | plain type val => rw [hdata] at hd; cases hd
  | recRef target => rw [hdata] at hd; cases hd
  | record r => rw [hdata] at hd; cases hd

theorem ins_reaches (h : Represents husk lag m d) (hd : ScopeVerb.perform H .ins n d = some d')
    (hkeeps : ScopeVerb.keepsUp H .ins n d lag = true) :
    Reaches H husk m (.ins n) lag d' := by
  unfold ScopeVerb.perform at hd
  unfold ScopeVerb.keepsUp at hkeeps
  by_cases htype : n.isTypeID = true
  · rw [if_pos htype] at hd
    obtain ⟨t, ht, hrep⟩ := h.setType hd
    refine ⟨{ m with type := t }, ?_, hrep⟩
    rw [TreeDiffScopes.applyTo, RecordContent.mutator, TreeMutator.injectNew, htype,
      RecordContent.isNamed_of_isTypeID htype, Bool.and_true, if_pos rfl, ht]
    rfl
  · rw [if_neg htype] at hd
    have hother := Bool.eq_false_iff.mpr htype
    rw [hother, Bool.false_or, Bool.not_eq_true'] at hkeeps
    obtain ⟨hfree, s, hs, rfl⟩ := of_onElement hd
    cases hs
    refine ⟨_, ?_, h.put hkeeps ((h.get hkeeps).insert n)⟩
    rw [TreeDiffScopes.applyTo, RecordContent.injectNew_mutator hfree hother]
    rfl

theorem del_reaches (h : Represents husk lag m d) (hd : ScopeVerb.perform H .del n d = some d')
    (hkeeps : ScopeVerb.keepsUp H .del n d lag = true) :
    Reaches H husk m (.del n) lag d' := by
  have hlag : (n.isNamed && lag) = false := (Bool.not_eq_true' _).mp hkeeps
  obtain ⟨hfree, s, hs, rfl⟩ := of_onElement hd
  obtain ⟨e, hcurrent, hmatch, hrep⟩ := (h.get hlag).delete hs
  refine ⟨_, ?_, h.put hlag hrep⟩
  rw [TreeDiffScopes.applyTo, hasSrc_mutator (by rw [hcurrent]; rfl), if_pos rfl,
    RecordContent.matchSrc_mutator hfree hcurrent hmatch]
  exact RecordContent.skipSrc_mutator hfree hcurrent

theorem pick_reaches (h : Represents husk lag m d) (hd : ScopeVerb.perform H .pick n d = some d')
    (hkeeps : ScopeVerb.keepsUp H .pick n d lag = true) :
    Reaches H husk m (.pick n) lag d' := by
  have hlag : (n.isNamed && lag) = false := (Bool.not_eq_true' _).mp hkeeps
  obtain ⟨hfree, s, hs, rfl⟩ := of_onElement hd
  obtain ⟨e, hcurrent, hmatch, hrep⟩ := (h.get hlag).pick hs
  refine ⟨_, ?_, h.put hlag hrep⟩
  rw [TreeDiffScopes.applyTo, RecordContent.acceptSrc_mutator hfree hcurrent hmatch]
  rfl

theorem find_reaches (hhusk : ∀ e, (husk e).idi.hash = e.idi.hash) (h : Represents husk lag m d)
    (hd : ScopeVerb.perform H .find n d = some d')
    (hkeeps : ScopeVerb.keepsUp H .find n d lag = true) :
    Reaches H husk m (.find n) lag d' := by
  obtain ⟨hlag, hfirst⟩ := Bool.and_eq_true_iff.mp hkeeps
  rw [Bool.not_eq_true'] at hlag hfirst
  obtain ⟨hfree, s, hs, rfl⟩ := of_onElement hd
  obtain ⟨i, e, hsrc, hfound, he, hrep⟩ := (h.get hlag).find hhusk hs hfirst
  refine ⟨_, ?_, h.put hlag hrep⟩
  rw [TreeDiffScopes.applyTo, hasSrc_mutator hsrc, if_pos rfl,
    RecordContent.findSrc_mutator hfree hfound he]
  rfl

theorem skip_reaches (h : Represents husk lag m d) (hd : ScopeVerb.perform H .skip n d = some d')
    (hkeeps : ScopeVerb.keepsUp H .skip n d lag = true) :
    Reaches H husk m (.skip n) lag d' := by
  have hlag : (n.isNamed && lag) = false := (Bool.not_eq_true' _).mp hkeeps
  obtain ⟨hfree, s, hs, rfl⟩ := of_onElement hd
  obtain ⟨e, hcurrent, hrep⟩ := (h.get hlag).skip hs
  refine ⟨_, ?_, h.put hlag hrep⟩
  rw [TreeDiffScopes.applyTo, hasSrc_mutator (by rw [hcurrent]; rfl)]
  exact RecordContent.skipSrc_mutator hfree hcurrent

theorem set_reaches (h : Represents husk lag m d) (hd : ScopeVerb.perform H .set n d = some d')
    (hkeeps : ScopeVerb.keepsUp H .set n d lag = true) :
    Reaches H husk m (.set n) lag d' := by
  unfold ScopeVerb.perform at hd
  unfold ScopeVerb.keepsUp at hkeeps
  dsimp only at hd hkeeps
  by_cases htype : n.isTypeID = true
  · rw [if_pos htype] at hd
    obtain ⟨t, ht, hrep⟩ := h.setType hd
    refine ⟨{ m with type := t }, ?_, hrep⟩
    rw [TreeDiffScopes.applyTo, RecordContent.mutator, TreeMutator.assignElm, htype,
      RecordContent.isNamed_of_isTypeID htype, Bool.and_true, if_pos rfl, ht]
    rfl
  · rw [if_neg htype] at hd
    have hother := Bool.eq_false_iff.mpr htype
    rw [hother, Bool.false_or, Bool.not_eq_true'] at hkeeps
    obtain ⟨hfree, s, hs, rfl⟩ := of_onElement hd
    obtain ⟨i, e, e', hfound, he, hassign, rfl⟩ := (h.get hkeeps).change hs
    refine ⟨_, ?_, h.put hkeeps ((h.get hkeeps).set i e')⟩
    rw [TreeDiffScopes.applyTo, RecordContent.assignElm_mutator hfree hother hfound he hassign]
    rfl

theorem Represents.acceptAttribs (h : Represents husk lag m d) {a : Sequence} (ha : d.attribs.afterAll = some a) :
    Sequence.Represents husk (RecordContent.acceptAll husk m.attribs) a := by
  cases hlag : lag with
  | false => exact (h.attribs hlag).afterAll ha
  | true =>
    obtain ⟨hrep, rfl⟩ := (h.behind hlag).afterAll husk ha
    exact hrep

theorem Represents.leaveAttribs (h : Represents husk lag m d) {a : Sequence}
    (ha : d.attribs.afterAll = some a) :
    Represents husk (lag || !d.attribs.ahead.isEmpty) m { d with attribs := a } := by
  refine ⟨h.type, ?_, ?_, h.children⟩
  · intro hsettled
    obtain ⟨hlag, hnone⟩ := Bool.or_eq_false_iff.mp hsettled
    have hnil : d.attribs.ahead = [] := isEmpty_iff.mp (by rwa [Bool.not_eq_false'] at hnone)
    have hsame := Sequence.eq_of_afterAll husk ha
    rw [hnil, map_nil, append_nil, ← hnil] at hsame
    rw [hsame]
    exact h.attribs hlag
  · intro _
    cases hlag : lag with
    | false => exact (h.attribs hlag).lags ha
    | true =>
      obtain ⟨-, rfl⟩ := (h.behind hlag).afterAll husk ha
      exact h.behind hlag

theorem after_reaches (h : Represents husk lag m d) (hd : ScopeVerb.perform H .after n d = some d')
    (hkeeps : ScopeVerb.keepsUp H .after n d lag = true) :
    Reaches H husk m (.after n)
      (ScopeVerb.lagAfter H .after n d lag) d' := by
  unfold ScopeVerb.perform RecordDraft.after at hd
  unfold ScopeVerb.keepsUp RefHash.isMark at hkeeps
  unfold ScopeVerb.lagAfter RefHash.isMark
  cases hend : n.matchNode H.refEND with
  | true =>
    rw [hend] at hd
    by_cases hmark : H.refEND.equalsMarker n = true
    · rw [if_pos hmark] at hd
      obtain ⟨a, ha, hd⟩ := Option.bind_eq_some_iff.mp hd
      obtain ⟨c, hc, hd⟩ := Option.bind_eq_some_iff.mp hd
      cases hd
      refine ⟨⟨m.type, RecordContent.acceptAll husk m.attribs,
        RecordContent.acceptAll husk m.children⟩, ?_, h.type, fun _ => h.acceptAttribs ha,
        fun hbehind => absurd hbehind Bool.false_ne_true, h.children.afterAll hc⟩
      rw [TreeDiffScopes.applyTo, RecordContent.acceptUntil_END hend hmark]
      rfl
    · rw [if_neg hmark] at hd
      cases hd
  | false =>
    rw [hend] at hd
    cases hattribs : n.matchNode H.refATTRIBS with
    | true =>
      rw [hattribs] at hd
      by_cases hmark : H.refATTRIBS.equalsMarker n = true
      · rw [if_pos hmark] at hd
        obtain ⟨a, ha, hd⟩ := Option.bind_eq_some_iff.mp hd
        cases hd
        refine ⟨{ m with attribs := RecordContent.acceptAll husk m.attribs }, ?_, h.type,
          fun _ => h.acceptAttribs ha,
          fun hbehind => absurd hbehind Bool.false_ne_true, h.children⟩
        rw [TreeDiffScopes.applyTo, RecordContent.acceptUntil_ATTRIBS hend hattribs hmark]
        rfl
      · rw [if_neg hmark] at hd
        cases hd
    | false =>
      -- an element is named, and its layer accepts up to it
      have hlayer : ∀ {lag' : Bool} {d₁ : RecordDraft}, Represents husk lag' m d₁ →
          (n.isNamed && lag') = false → d₁.onElement H n (Sequence.after n) = some d' →
          Reaches H husk m (.after n) lag' d' := by
        intro lag' d₁ h₁ hlag hd
        obtain ⟨hfree, s, hs, rfl⟩ := of_onElement hd
        obtain ⟨e, hcurrent, hmatch, hrep⟩ := (h₁.get hlag).after hs
        refine ⟨_, ?_, h₁.put hlag hrep⟩
        rw [TreeDiffScopes.applyTo,
          RecordContent.acceptUntil_mutator hfree hend hattribs hcurrent hmatch]
        rfl
      rw [hattribs] at hd
      rw [hend, hattribs, Bool.or_false, Bool.false_or, Bool.not_eq_true'] at hkeeps
      cases hnamed : n.isNamed with
      | true =>
        rw [hnamed] at hd
        have hsame : (!(false || false) && (lag || (!true && !d.attribs.ahead.isEmpty)))
            = lag := by
          cases lag <;> rfl
        rw [hsame]
        exact hlayer h hkeeps hd
      | false =>
        rw [hnamed] at hd
        obtain ⟨a, ha, hd⟩ := Option.bind_eq_some_iff.mp hd
        exact hlayer (h.leaveAttribs ha) (by rw [hnamed]; rfl) hd

/-- What a verb means is what the mutator does. -/
theorem perform_reaches (hhusk : ∀ e, (husk e).idi.hash = e.idi.hash) (v : ScopeVerb)
    (h : Represents husk lag m d) (hd : v.perform H n d = some d')
    (hkeeps : v.keepsUp H n d lag = true) :
    Reaches H husk m (v.step n)
      (v.lagAfter H n d lag) d' := by
  cases v with
  | ins => exact ins_reaches h hd hkeeps
  | del => exact del_reaches h hd hkeeps
  | pick => exact pick_reaches h hd hkeeps
  | find => exact find_reaches hhusk h hd hkeeps
  | skip => exact skip_reaches h hd hkeeps
  | after => exact after_reaches h hd hkeeps
  | set => exact set_reaches h hd hkeeps

end RecordDraft

/-! ## A whole diff -/

namespace TreeDiff

variable {H : RefHash} {husk : GenNode → GenNode}

/-- Applying a diff from the scope with the given layers. -/
def Leads (H : RefHash) (husk : GenNode → GenNode) (diff : TreeDiff) (m m' : RecordContent) : Prop :=
  ∀ outer, TreeDiffScopes.steps (genNodeBinding H husk) H ⟨m.mutator, outer⟩ diff.steps
    = .ok ⟨m'.mutator, outer⟩

theorem leads_verb {v : ScopeVerb} {n : GenNode} {rest : TreeDiff} {m m₁ m' : RecordContent}
    (hverb : TreeDiffScopes.applyTo (genNodeBinding H husk) H m.mutator (v.step n) = .ok m₁.mutator)
    (hrest : rest.Leads H husk m₁ m') : (verb v n rest).Leads H husk m m' := by
  intro outer
  have hstep : TreeDiffScopes.step (genNodeBinding H husk) H ⟨m.mutator, outer⟩ (v.step n)
      = .ok ⟨m₁.mutator, outer⟩ := by
    have hscope : TreeDiffScopes.step (genNodeBinding H husk) H ⟨m.mutator, outer⟩ (v.step n)
        = (do return ⟨← TreeDiffScopes.applyTo (genNodeBinding H husk) H m.mutator (v.step n),
            outer⟩) := by
      cases v <;> rfl
    rw [hscope, hverb]
    rfl
  rw [TreeDiff.steps, TreeDiffScopes.steps_cons, hstep]
  exact hrest outer

/-- A nested scope, entered on the element designated, is left for the element as changed. -/
theorem leads_scope {n k : GenNode} {inner rest : TreeDiff} {m m' sub : RecordContent}
    {r : Record} {e : GenNode} {i : Nat} {m₁ : RecordContent} (hfree : n.isReserved H = false)
    (hfound : (m.get n.scope).locate .vector n.matchNode = some i)
    (he : (m.get n.scope).collection[i]? = some e) (hmatch : n.matchNode e = true)
    (hnested : e.data.maybeAccessNestedRec = some r)
    (hinit : r.buildMutator.init = sub.mutator) (hinner : inner.Leads H husk sub m₁)
    (hcomplete : m₁.mutator.completeScope = true)
    (hrest : rest.Leads H husk (m.put { m.get n.scope with
      collection := (m.get n.scope).collection.set i
        (.mk e.idi (e.data.setNestedRec (.ofMutator m₁.mutator))) } n.scope) m') :
    (scope n inner k rest).Leads H husk m m' := by
  intro outer
  obtain ⟨locus, hopen, hback⟩ :=
    RecordContent.mutateChild_mutator husk hfree hfound he hmatch hnested
  have henter : TreeDiffScopes.step (genNodeBinding H husk) H ⟨m.mutator, outer⟩ (.mut n)
      = .ok ⟨sub.mutator, (m.mutator, locus) :: outer⟩ := by
    rw [TreeDiffScopes.step, hopen, hinit]
    rfl
  have hleave : TreeDiffScopes.step (genNodeBinding H husk) H
      ⟨m₁.mutator, (m.mutator, locus) :: outer⟩ (.emu k) = .ok ⟨(m.put { m.get n.scope with
        collection := (m.get n.scope).collection.set i
          (.mk e.idi (e.data.setNestedRec (.ofMutator m₁.mutator))) } n.scope).mutator, outer⟩ := by
    rw [TreeDiffScopes.step, if_pos hcomplete, ← hback]
  rw [TreeDiff.steps, TreeDiffScopes.steps_cons, henter]
  show TreeDiffScopes.steps (genNodeBinding H husk) H _ (inner.steps ++ .emu k :: rest.steps) = _
  rw [TreeDiffScopes.steps_append, hinner]
  show TreeDiffScopes.steps (genNodeBinding H husk) H _ (.emu k :: rest.steps) = _
  rw [TreeDiffScopes.steps_cons, hleave]
  exact hrest outer

/-- A diff leads to what it means, by induction over its bracketing. -/
theorem interpret_leads (hhusk : ∀ e, (husk e).idi.hash = e.idi.hash) (diff : TreeDiff)
    {lag : Bool} {m : RecordContent} {d d' : RecordDraft}
    (h : RecordDraft.Represents husk lag m d) (hd : diff.interpret H d = some d')
    (hkeeps : diff.keepsUp H lag d = true) :
    ∃ m', diff.Leads H husk m m' ∧ RecordDraft.Represents husk false m' d' := by
  induction diff generalizing lag m d d' with
  | done =>
    cases hd
    have hlag : lag = false := (Bool.not_eq_true' _).mp hkeeps
    rw [hlag] at h
    exact ⟨m, fun _ => rfl, h⟩
  | verb v n rest ih =>
    obtain ⟨d₁, hverb, hrest⟩ := Option.bind_eq_some_iff.mp hd
    obtain ⟨hgoes, hafter⟩ := Bool.and_eq_true_iff.mp hkeeps
    rw [hverb] at hafter
    obtain ⟨m₁, happly, hrep⟩ := RecordDraft.perform_reaches hhusk v h hverb hgoes
    obtain ⟨m', hleads, hrep'⟩ := ih hrep hrest hafter
    exact ⟨m', leads_verb happly hleads, hrep'⟩
  | scope n inner k rest ihinner ihrest =>
    obtain ⟨d₁, hscope, hrest⟩ := Option.bind_eq_some_iff.mp hd
    obtain ⟨hbefore, hafter⟩ := Bool.and_eq_true_iff.mp hkeeps
    obtain ⟨hlag, hwithin⟩ := Bool.and_eq_true_iff.mp hbefore
    rw [Bool.not_eq_true'] at hlag
    rw [hscope] at hafter
    -- the element designated is a nested record, which the inner diff changes as a whole
    unfold RecordDraft.mutate at hscope
    by_cases hsame : n.matchNode k = true
    · rw [if_pos hsame] at hscope
      obtain ⟨hfree, s, hs, rfl⟩ := RecordDraft.of_onElement hscope
      obtain ⟨i, e, e', hfound, he, hchange, rfl⟩ := (h.get hlag).change hs
      obtain ⟨r, hnested, hchange⟩ := Option.bind_eq_some_iff.mp hchange
      obtain ⟨d₂, hinner, hchange⟩ := Option.bind_eq_some_iff.mp hchange
      obtain ⟨r', hcompleted, hchange⟩ := Option.bind_eq_some_iff.mp hchange
      cases hchange
      have hdesignated := (h.get hlag).locate (n := n) ▸ hfound
      have haccepted := (h.get hlag).collection ▸ he
      have hat : d.nestedIn n = some r := by
        unfold RecordDraft.nestedIn
        rw [hdesignated]
        show ((d.get n.scope).accepted[i]?).bind _ = _
        rw [haccepted]
        exact hnested
      rw [hat] at hwithin
      obtain ⟨sub, hinit, hsub⟩ := RecordDraft.represents_ofRecord husk r
      obtain ⟨m₁, hleads, hrep₁⟩ := ihinner hsub hinner hwithin
      obtain ⟨hcomplete, hresult⟩ := hrep₁.completed hcompleted
      have hput := h.put hlag ((h.get hlag).set i (.mk e.idi (e.data.setNestedRec r')))
      obtain ⟨m', hrestleads, hrep'⟩ := ihrest hput hrest hafter
      rw [← hresult] at hrestleads
      exact ⟨m', leads_scope hfree hfound he
        (Sequence.matchNode_of_designated hdesignated haccepted) hnested hinit hleads hcomplete
        hrestleads, hrep'⟩
    · rw [if_neg hsame] at hscope
      cases hscope

end TreeDiff

/-- **Refinement**: applying a well-formed diff to a record through the binding of its layers yields
the record the diff describes, where the application keeps up: each `after` which names a child
while attributes are pending is followed by one with a mark before attributes are mentioned again
and before the scope ends, and no `find` comes first upon the place the same element was fetched
from. What moving from a node leaves is only known to keep the identity. -/
theorem Record.applyDiff_eq_reference (H : RefHash) (husk : GenNode → GenNode)
    (hhusk : ∀ e, (husk e).idi.hash = e.idi.hash) (diff : TreeDiff) {r r' : Record}
    (hwell : diff.reference H r = some r')
    (hkeeps : diff.keepsUp H false (.ofRecord r) = true) :
    r.applyDiff H husk diff.steps = .ok r' := by
  obtain ⟨d, hd, hcompleted⟩ := Option.bind_eq_some_iff.mp hwell
  obtain ⟨m, hinit, hrep⟩ := RecordDraft.represents_ofRecord husk r
  obtain ⟨m', hleads, hrep'⟩ := diff.interpret_leads hhusk hrep hd hkeeps
  obtain ⟨hcomplete, hresult⟩ := hrep'.completed hcompleted
  unfold Record.applyDiff TreeDiffScopes.consume TreeDiffScopes.initDiffApplication
  rw [hinit, hleads []]
  show (if m'.mutator.completeScope then Except.ok m'.mutator
    else Except.error TreeDiffError.unsettled).map Record.ofMutator = _
  rw [if_pos hcomplete, ← hresult]
  rfl

namespace Sample

/-- Accepts the elements up to a child and then all others, changes an attribute and reorders the
nested scope. -/
def rebuild : TreeDiff :=
  .verb .after (child 2 "x") (.verb .after hashes.refEND (.verb .ins (child 6 "w")
    (.verb .set (.mk ⟨"a", 1⟩ (.text "B"))
      (.scope nested (.verb .ins (.mk ⟨"type", 8⟩ (.text "Other")) (.verb .find (child 5 "v")
        (.verb .pick (child 4 "u") (.verb .skip (child 5 "v") .done)))) nested .done))))

/-- Accepts the elements up to the last child. -/
def upToChild : TreeDiff := .verb .after nested .done

/-- An element which is there twice, told apart by the payload only. -/
def twin (text : String) : GenNode := .mk ⟨"_CHILD_twin", 7⟩ (.text text)

/-- A record with such elements. -/
def twins : Record := .mk "Top" [] [child 2 "x", twin "first", twin "second"]

/-- Fetches both of them. -/
def bothFirst : TreeDiff :=
  .verb .find (twin "") (.verb .find (twin "") (.verb .pick (child 2 "x")
    (.verb .skip (twin "") (.verb .skip (twin "") .done))))

/-- The payloads of children holding a text. -/
def texts (r : Record) : List String :=
  r.children.filterMap fun n =>
    match n.data with
    | .text s => some s
    | _ => none

end Sample

theorem GenNode.movedFrom_hash (n : GenNode) : n.movedFrom.idi.hash = n.idi.hash := by
  obtain ⟨idi, data⟩ := n
  cases data <;> rfl

/-- A diff with most of the verbs, applied to a record. -/
theorem Record.applyDiff_eq_reference_rebuild :
    ∃ r', Sample.record.applyDiff Sample.hashes GenNode.movedFrom Sample.rebuild.steps = .ok r' ∧
      Sample.nestedNames r' = [["_CHILD_v", "_CHILD_u"]] ∧ Sample.texts r' = ["x", "w"] := by
  have hsome : (Sample.rebuild.reference Sample.hashes Sample.record).isSome = true := by decide
  obtain ⟨r', hwell⟩ := Option.isSome_iff_exists.mp hsome
  have hnames : (Sample.rebuild.reference Sample.hashes Sample.record).map Sample.nestedNames
      = some [["_CHILD_v", "_CHILD_u"]] := by decide
  have htexts : (Sample.rebuild.reference Sample.hashes Sample.record).map Sample.texts
      = some ["x", "w"] := by decide
  rw [hwell] at hnames htexts
  exact ⟨r', Record.applyDiff_eq_reference Sample.hashes GenNode.movedFrom GenNode.movedFrom_hash
    Sample.rebuild hwell (by decide), Option.some.inj hnames, Option.some.inj htexts⟩

/-- **Well-formed diffs which are not applied as they mean**: `after` naming a child does not accept
the attributes, and so the diff is refused for unsettled content; and the second of two `find` gets
hold of the leftover of the first. -/
theorem Record.applyDiff_ne_reference :
    (Sample.upToChild.reference Sample.hashes Sample.record).map Sample.texts = some ["x"] ∧
    (Sample.record.applyDiff Sample.hashes GenNode.movedFrom Sample.upToChild.steps).toOption.map
      Sample.texts = none ∧
    (Sample.bothFirst.reference Sample.hashes Sample.twins).map Sample.texts
      = some ["first", "second", "x"] ∧
    (Sample.twins.applyDiff Sample.hashes GenNode.movedFrom Sample.bothFirst.steps).toOption.map
      Sample.texts = some ["first", "", "x"] := by
  refine ⟨?_, ?_, ?_, ?_⟩
  · decide
  · decide
  · decide
  · decide

end Lumiera.Lib.Diff
